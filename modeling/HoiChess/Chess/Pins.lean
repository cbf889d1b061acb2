import HoiChess.Chess.Evasion
import HoiChess.Chess.ParseMove

/-!
# Pins

A man shields its king if it is all that stands between the king and an enemy
slider; `pinned` finds these men (`Sim.mem_pinned`).  A move of a piece is legal
exactly if it stays on, or steps onto, the line of every man that gives check or
would give check without the moving piece (`Position.Carries.legal_iff`).  So a
piece that may not move to a square, although another of its kind may, shields the
king off the line of the square (`Position.Legal.like`).
-/

namespace HoiChess.Chess

open WordSet Grid Rules

namespace Rules

variable {pos : Position}

/-- The man on `c` is all that stands between the king on `k` and the slider on `s`. -/
structure Position.Shields (pos : Position) (s k c : Square) : Prop where
  king : pos.man k = some (pos.side, .king)
  slider : ∃ p, pos.man s = some (pos.side.xside, p) ∧ Aligned (slideDirs p) s k
  between : Between s k c
  own : ∃ q, pos.man c = some (pos.side, q)
  clear : ∀ u, Between s k u → u ≠ c → pos.man u = none

/-- The man on `c` shields the king, and not on the line from `dst` to the king. -/
def Position.Astray (pos : Position) (dst c : Square) : Prop :=
  ∃ s k, pos.Shields s k c ∧ ¬ Between dst k c

section Legal

variable {src dst s k : Square} {p : Piece} {cap : Option Piece}

theorem Position.Carries.victim_eq (hc : pos.Carries src dst p cap) {q : Piece}
    (hs : pos.man s = some (pos.side.xside, q)) :
    (Ply.move src dst p cap).victim = some s ↔ dst = s := by
  constructor
  · intro hv
    cases cap with
    | none => cases hv
    | some x => exact Option.some.inj hv
  · rintro rfl
    obtain rfl := hc.cap_of_man hs
    rfl

/-- **A move of a piece is legal if it stops every check that there is, or would be without
the piece.** -/
theorem Position.Carries.legal_iff (hs : Sane pos) (hc : pos.Carries src dst p cap)
    (hp : p ≠ .pawn) (hking : p ≠ .king) :
    pos.Legal (.move src dst p cap) ↔
      ∀ s k, pos.Checks s k ∨ pos.Shields s k src → dst = s ∨ Between s k dst := by
  have hpseudo : pos.Pseudo (.move src dst p cap) := ⟨hc, fun e => hp e.1⟩
  have hne : src ≠ dst := hpseudo.src_ne_dst
  have hkings : ∀ k, pos.placement (.move src dst p cap) k = some (pos.side, .king) ↔
      pos.man k = some (pos.side, .king) := fun k =>
    (placement_king hs hpseudo k).trans (by rw [if_neg (show (Ply.move src dst p cap).piece ≠ _ from hking)])
  constructor
  · rintro hl s k (hchk | hsh)
    · have hmeet := hl.meets hs hking hchk
      obtain ⟨_, q, hq, _⟩ := hchk
      rwa [hc.victim_eq hq] at hmeet
    · by_contra hno
      obtain ⟨hd, hb⟩ := not_or.mp hno
      obtain ⟨q, hq, halign⟩ := hsh.slider
      have hs' : pos.placement (.move src dst p cap) s = some (pos.side.xside, q) :=
        (placement_enemy hs hpseudo s q).mpr ⟨hq, fun e => hd ((hc.victim_eq hq).mp e)⟩
      have hr : k ∈ reach (pos.placement (.move src dst p cap)) pos.side.xside q s := by
        refine mem_reach.mpr ⟨Or.inr halign, fun u hu => ?_⟩
        have hud : u ≠ dst := fun e => hb (e ▸ hu)
        rw [placement_eq hpseudo]
        by_cases hus : u = src
        · simp [Ply.dst, Ply.src, hus, hne]
        · have hclear := hsh.clear u hu hus
          rw [← placement_eq hpseudo]
          exact hpseudo.placement_none rfl hclear hud
      refine hl.2 k ?_ ⟨s, q, hs', hr⟩
      show pos.placement (.move src dst p cap) k = some (pos.side.xside.xside, .king)
      rw [xside_xside]
      exact (hkings k).mpr hsh.king
  · intro hmeet
    refine ⟨hpseudo, fun k hk => ?_⟩
    rintro ⟨s, q, hsq, hr⟩
    change pos.placement (.move src dst p cap) k = some (pos.side.xside.xside, .king) at hk
    change pos.placement (.move src dst p cap) s = some (pos.side.xside, q) at hsq
    change k ∈ reach (pos.placement (.move src dst p cap)) pos.side.xside q s at hr
    rw [xside_xside] at hk
    have hk := (hkings k).mp hk
    obtain ⟨hsq, hv⟩ := (placement_enemy hs hpseudo s q).mp hsq
    obtain ⟨hgeo, hclear⟩ := mem_reach.mp hr
    have hd : dst ≠ s := fun e => hv ((hc.victim_eq hsq).mpr e)
    have hdst : ∀ u, Between s k u → u ≠ dst := by
      rintro u hu rfl
      have hput : pos.placement (.move src u p cap) u = some (pos.side, p) :=
        (placement_eq hpseudo u).trans (if_pos rfl)
      exact absurd (hclear u hu) (by rw [hput]; exact Option.some_ne_none _)
    have hrest : ∀ u, Between s k u → u ≠ src → pos.man u = none := by
      intro u hu hus
      have hn := hclear u hu
      cases hm : pos.man u with
      | none => rfl
      | some m =>
        have hvu : (Ply.move src dst p cap).victim ≠ some u := by
          intro e
          rcases Ply.victim_cases e with e | ⟨_, _, e, _⟩
          · exact hdst u hu e
          · cases e
        rw [placement_stays hpseudo hm hus (hdst u hu) hvu (fun r e => by cases e)] at hn
        cases hn
    have hstop : dst = s ∨ Between s k dst := by
      refine hmeet s k ?_
      by_cases hb : Between s k src
      · refine Or.inr ⟨hk, ⟨q, hsq, ?_⟩, hb, ⟨p, hc.1⟩, hrest⟩
        rcases hgeo with ⟨d, hd, ha⟩ | ha
        · exact absurd hb (not_between_of_leap hd ha)
        · exact ha
      · refine Or.inl ⟨hk, q, hsq, mem_reach.mpr ⟨hgeo, fun u hu => hrest u hu ?_⟩⟩
        rintro rfl
        exact hb hu
    rcases hstop with e | hb
    · exact hd e
    · exact hdst dst hb rfl

/-- A piece that shields the king on the line of its destination stays on it. -/
theorem Position.Shields.stays {c : Square} (hsh : pos.Shields s k c)
    (hr : dst ∈ reach pos.man pos.side p c) (hb : Between dst k c) :
    dst = s ∨ Between s k dst := by
  rcases hb.symm.nested hsh.between.symm with e | hb' | hb'
  · exact Or.inl e
  · obtain ⟨q, hq, _⟩ := hsh.slider
    have := (mem_reach.mp hr).2 s (hsh.between.symm.inner hb')
    rw [hq] at this
    cases this
  · exact Or.inr hb'.symm

/-- **Where a piece may move, another of its kind may move too unless it is astray.** -/
theorem Position.Legal.like (hs : Sane pos) (hl : pos.Legal (.move src dst p cap))
    (hp : p ≠ .pawn) (hking : p ≠ .king) {c : Square} (hm : pos.man c = some (pos.side, p))
    (hr : dst ∈ reach pos.man pos.side p c) (hc : ¬ pos.Astray dst c) :
    pos.Legal (.move c dst p cap) := by
  have hcar : pos.Carries src dst p cap := hl.1.1
  have hcar' : pos.Carries c dst p cap := ⟨hm, hcar.2.1, by rwa [targets_piece hp]⟩
  refine (hcar'.legal_iff hs hp hking).mpr ?_
  rintro s k (hchk | hsh)
  · exact (hcar.legal_iff hs hp hking).mp hl s k (Or.inl hchk)
  · by_contra hno
    exact hc ⟨s, k, hsh, fun hb => hno (hsh.stays hr hb)⟩

end Legal

end Rules

/-! ## `pinned` -/

/-- `attack_bb` of a bishop or a rook. -/
theorem mem_sliderTable {p : Piece} (hp : p = .bishop ∨ p = .rook) (sq t : Square) :
    mem (attackBb p sq) t = true ↔ Aligned (slideDirs p) sq t := by
  rcases hp with rfl | rfl
  · exact mem_bishopTable sq t
  · exact mem_rookTable sq t

/-- A slider pins the man on `c`: nothing else stands on their line. -/
def Pins (man : Placement) (atkside : Color) (dirs : List Dir) (dst c src : Square) : Prop :=
  Aligned dirs dst src ∧ Between src dst c ∧ (∃ m, man c = some m ∧ m.1 ≠ atkside) ∧
    ∀ u, Between src dst u → u ≠ c → man u = none

section Pinned

variable [k : Build] {b : Board} {man : Placement}

/-- One round of a loop of `pinned`. -/
def Board.pinStep (b : Board) (atkside : Color) (p : Piece) (dst : Square) (ret : Bitboard)
    (src : Square) : Bitboard :=
  let tmp := attackBb p dst &&& rayBb src dst &&& b.occupied
  if Bitboard.any (tmp &&& b.getPieces atkside) then ret
  else if Bitboard.popcnt tmp = 1 then
    match k.firstbit.pick tmp with
    | none => ret
    | some sq => Bitboard.setbit ret sq
  else ret

/-- The bits between the two. -/
theorem mem_pinBlockers (h : Consistent b man) {p : Piece} (hp : p = .bishop ∨ p = .rook)
    (dst src u : Square) :
    mem (attackBb p dst &&& rayBb src dst &&& b.occupied) u = true ↔
      Aligned (slideDirs p) dst src ∧ Between src dst u ∧ man u ≠ none := by
  rw [mem_and, mem_and, Bool.and_eq_true, Bool.and_eq_true, mem_sliderTable hp, mem_rayBb,
    h.occ_eq, Option.isSome_iff_ne_none, and_assoc]
  refine and_congr_left fun hu => ?_
  exact Between.aligned_iff (slideDirs_unit p) hu.1.symm

/-- One slider. -/
theorem mem_pinStep (h : Consistent b man) {p : Piece} (hp : p = .bishop ∨ p = .rook)
    (atkside : Color) (dst src c : Square) (ret : Bitboard) :
    mem (b.pinStep atkside p dst ret src) c = true ↔
      mem ret c = true ∨ Pins man atkside (slideDirs p) dst c src := by
  unfold Board.pinStep
  generalize htmp : attackBb p dst &&& rayBb src dst &&& b.occupied = tmp
  have hmem : ∀ u, mem tmp u = true ↔
      Aligned (slideDirs p) dst src ∧ Between src dst u ∧ man u ≠ none := by
    rw [← htmp]
    exact mem_pinBlockers h hp dst src
  show mem (if _ then _ else _) c = true ↔ _
  have hone : Bitboard.popcnt tmp = 1 ↔ ∃ i, ∀ j, mem tmp j = true ↔ j = i := count_eq_one tmp
  by_cases henemy : Bitboard.any (tmp &&& b.getPieces atkside) = true
  · rw [if_pos henemy]
    refine (or_iff_left ?_).symm
    rintro ⟨_, _, ⟨m, hm, hcol⟩, hrest⟩
    obtain ⟨u, hu⟩ := (any_iff _).mp henemy
    rw [mem_and, Bool.and_eq_true, hmem, h.mem_all] at hu
    obtain ⟨⟨_, hbu, _⟩, q, hq⟩ := hu
    by_cases huc : u = c
    · subst huc
      rw [hm] at hq
      exact hcol (congrArg Prod.fst (Option.some.inj hq))
    · rw [hrest u hbu huc] at hq
      cases hq
  · rw [if_neg henemy]
    by_cases h1 : Bitboard.popcnt tmp = 1
    · rw [if_pos h1]
      obtain ⟨i, hi⟩ := hone.mp h1
      cases hpick : k.firstbit.pick tmp with
      | none =>
        have := k.firstbit.pick_none tmp hpick
        rw [this] at hi
        exact absurd ((hi i).mpr rfl) (by simp)
      | some sq =>
        obtain rfl : sq = i := (hi sq).mp (k.firstbit.pick_mem tmp sq hpick)
        simp only [mem_insert, Bool.or_eq_true, decide_eq_true_eq]
        refine or_congr_right ?_
        obtain ⟨halign, hb, hn⟩ := (hmem sq).mp ((hi sq).mpr rfl)
        constructor
        · rintro rfl
          refine ⟨halign, hb, ?_, ?_⟩
          · obtain ⟨m, hm⟩ := Option.ne_none_iff_exists'.mp hn
            refine ⟨m, hm, fun hcol => henemy ((any_iff _).mpr ⟨sq, ?_⟩)⟩
            rw [mem_and, Bool.and_eq_true, hmem, h.mem_all]
            exact ⟨⟨halign, hb, hn⟩, m.2, by rw [hm, ← hcol]⟩
          · intro u hu hne
            by_contra hman
            exact hne ((hi u).mp ((hmem u).mpr ⟨halign, hu, hman⟩))
        · rintro ⟨_, hbc, ⟨m, hm, _⟩, _⟩
          exact ((hi c).mp ((hmem c).mpr ⟨halign, hbc, by rw [hm]; exact Option.some_ne_none _⟩)).symm
    · rw [if_neg h1]
      refine (or_iff_left ?_).symm
      rintro ⟨halign, hb, ⟨m, hm, _⟩, hrest⟩
      refine h1 (hone.mpr ⟨c, fun u => (hmem u).trans ⟨?_, ?_⟩⟩)
      · rintro ⟨_, hu, hn⟩
        by_contra hne
        exact hn (hrest u hu hne)
      · rintro rfl
        exact ⟨halign, hb, by rw [hm]; exact Option.some_ne_none _⟩

theorem mem_pinnedBy (h : Consistent b man) {p : Piece} (hp : p = .bishop ∨ p = .rook)
    (atkside : Color) (dst c : Square) (ret : Bitboard) :
    mem (b.pinnedBy dst atkside p ret) c = true ↔ mem ret c = true ∨
      ∃ src, (man src = some (atkside, p) ∨ man src = some (atkside, .queen)) ∧
        Pins man atkside (slideDirs p) dst c src := by
  have hfold : ∀ (l : List Square) (ret : Bitboard),
      mem (l.foldl (b.pinStep atkside p dst) ret) c = true ↔
        mem ret c = true ∨ ∃ src ∈ l, Pins man atkside (slideDirs p) dst c src := by
    intro l
    induction l with
    | nil => simp
    | cons src l ih =>
      intro ret
      rw [List.foldl_cons, ih, mem_pinStep h hp]
      simp [or_assoc]
  have hloop : b.pinnedBy dst atkside p ret =
      (squares (b.pos atkside p ||| b.pos atkside .queen)).foldl (b.pinStep atkside p dst) ret := rfl
  rw [hloop, hfold]
  simp only [mem_squares, mem_or, Bool.or_eq_true, h.mem_pos]

/-- **The men that `pinned` finds**: each alone on the line of a slider. -/
theorem Consistent.mem_pinned (h : Consistent b man) (side : Color) (dst c : Square) :
    mem (b.pinned dst side) c = true ↔ ∃ src p, man src = some (side.xside, p) ∧
      Pins man side.xside (slideDirs p) dst c src := by
  rw [Board.pinned, mem_pinnedBy h (Or.inr rfl), mem_pinnedBy h (Or.inl rfl)]
  simp only [mem_zero, Bool.false_eq_true, false_or]
  have hqueen : ∀ {p src}, (p = .bishop ∨ p = .rook) → Pins man side.xside (slideDirs p) dst c src →
      Pins man side.xside (slideDirs .queen) dst c src := by
    rintro p src hp ⟨⟨d, hd, ha⟩, hrest⟩
    exact ⟨⟨d, mem_kingDirs.mpr (by rcases hp with rfl | rfl; exacts [Or.inr hd, Or.inl hd]), ha⟩, hrest⟩
  constructor
  · rintro (⟨src, hs | hs, hp⟩ | ⟨src, hs | hs, hp⟩)
    · exact ⟨src, .bishop, hs, hp⟩
    · exact ⟨src, .queen, hs, hqueen (Or.inl rfl) hp⟩
    · exact ⟨src, .rook, hs, hp⟩
    · exact ⟨src, .queen, hs, hqueen (Or.inr rfl) hp⟩
  · rintro ⟨src, p, hs, ⟨d, hd, ha⟩, hrest⟩
    cases p with
    | bishop => exact Or.inl ⟨src, Or.inl hs, ⟨d, hd, ha⟩, hrest⟩
    | rook => exact Or.inr ⟨src, Or.inl hs, ⟨d, hd, ha⟩, hrest⟩
    | queen =>
      rcases mem_kingDirs.mp hd with hd | hd
      · exact Or.inr ⟨src, Or.inr hs, ⟨d, hd, ha⟩, hrest⟩
      · exact Or.inl ⟨src, Or.inr hs, ⟨d, hd, ha⟩, hrest⟩
    | _ => cases hd

variable {pos : Position}

/-- **`pinned` finds the men that shield the king.** -/
theorem Sim.mem_pinned (h : Sim b pos) {king : Square} (hk : pos.man king = some (pos.side, .king))
    (c : Square) : mem (b.pinned king b.side) c = true ↔ ∃ s, pos.Shields s king c := by
  rw [h.side, h.consistent.mem_pinned]
  constructor
  · rintro ⟨s, p, hs, halign, hb, ⟨⟨col, q⟩, hm, hcol⟩, hrest⟩
    obtain rfl : col = pos.side := by
      have := eq_xside_of_ne hcol
      rwa [xside_xside] at this
    exact ⟨s, hk, ⟨p, hs, halign.symm (slideDirs_neg p)⟩, hb, ⟨q, hm⟩, hrest⟩
  · rintro ⟨s, hsh⟩
    obtain ⟨p, hs, halign⟩ := hsh.slider
    obtain ⟨q, hq⟩ := hsh.own
    exact ⟨s, p, hs, halign.symm (slideDirs_neg p), hsh.between, ⟨_, hq, ne_xside pos.side⟩, hsh.clear⟩

end Pinned

/-! ## What a man hides -/

section Hides

variable {man : Placement} {atkside : Color} {p : Piece} {src dst c : Square}

/-- The board without the man on `c`. -/
def Placement.without (man : Placement) (c : Square) : Placement := Function.update man c none

/-- The piece on `src` does not attack `dst`, and would without the man on `c`. -/
def Hides (man : Placement) (atkside : Color) (p : Piece) (src dst c : Square) : Prop :=
  dst ∉ reach man atkside p src ∧ dst ∈ reach (man.without c) atkside p src

/-- **A slider pins a man that hides a square from it.** -/
theorem pins_iff_hides (hp : leapDirs atkside p = []) :
    Pins man atkside (slideDirs p) dst c src ↔
      (∃ m, man c = some m ∧ m.1 ≠ atkside) ∧ Hides man atkside p src dst c := by
  have hreach : ∀ man, dst ∈ reach man atkside p src ↔
      Aligned (slideDirs p) src dst ∧ ∀ u, Between src dst u → man u = none := by
    intro man
    rw [mem_reach, Geometry, hp]
    simp
  constructor
  · rintro ⟨halign, hb, ⟨m, hm, hcol⟩, hrest⟩
    refine ⟨⟨m, hm, hcol⟩, fun hr => ?_, (hreach _).mpr ⟨halign.symm (slideDirs_neg p), fun u hu => ?_⟩⟩
    · have hnone := ((hreach man).mp hr).2 c hb
      rw [hm] at hnone
      cases hnone
    · by_cases huc : u = c
      · subst huc
        exact Function.update_self _ _ _
      · exact (Function.update_of_ne huc _ _).trans (hrest u hu huc)
  · rintro ⟨hm, hnot, hr⟩
    obtain ⟨halign, hclear⟩ := (hreach _).mp hr
    have hrest : ∀ u, Between src dst u → u ≠ c → man u = none := fun u hu huc =>
      (Function.update_of_ne huc _ _).symm.trans (hclear u hu)
    refine ⟨halign.symm (slideDirs_neg p), ?_, hm, hrest⟩
    by_contra hb
    refine hnot ((hreach man).mpr ⟨halign, fun u hu => hrest u hu ?_⟩)
    rintro rfl
    exact hb hu

/-- Only these pieces slide. -/
theorem slider_cases {p : Piece} (h : Aligned (slideDirs p) dst src) :
    p = .bishop ∨ p = .rook ∨ p = .queen := by
  obtain ⟨d, hd, _⟩ := h
  cases p with
  | bishop => exact Or.inl rfl
  | rook => exact Or.inr (Or.inl rfl)
  | queen => exact Or.inr (Or.inr rfl)
  | _ => cases hd

/-- **Pins are computed exactly**: `pinned` finds the men of `side`, other than the one on `dst`,
whose removal would let an enemy slider attack `dst`. -/
theorem Consistent.pinned_exact [Build] {b : Board} (h : Consistent b man) (dst : Square)
    (side : Color) (c : Square) :
    mem (b.pinned dst side) c = true ↔ (∃ q, man c = some (side, q)) ∧ c ≠ dst ∧
      ∃ src p, (p = .bishop ∨ p = .rook ∨ p = .queen) ∧ man src = some (side.xside, p) ∧
        Hides man side.xside p src dst c := by
  have hleap : ∀ p : Piece, (p = .bishop ∨ p = .rook ∨ p = .queen) → leapDirs side.xside p = [] := by
    rintro p (rfl | rfl | rfl) <;> rfl
  rw [h.mem_pinned]
  constructor
  · rintro ⟨src, p, hs, hpins⟩
    have hp := slider_cases hpins.1
    obtain ⟨⟨⟨col, q⟩, hm, hcol⟩, hhides⟩ := (pins_iff_hides (hleap p hp)).mp hpins
    obtain rfl : col = side := by
      have := eq_xside_of_ne hcol
      rwa [xside_xside] at this
    exact ⟨⟨q, hm⟩, hpins.2.1.ne_right.symm, src, p, hp, hs, hhides⟩
  · rintro ⟨⟨q, hq⟩, _, src, p, hp, hs, hhides⟩
    exact ⟨src, p, hs, (pins_iff_hides (hleap p hp)).mpr ⟨⟨_, hq, ne_xside side⟩, hhides⟩⟩

/-- The white rook on `e2` stands between its king on `e1` and a black rook on `e8`. -/
def rookPin : List PieceOp :=
  [.place 4 .white .king, .place 12 .white .rook, .place 60 .black .rook]

theorem pinned_exact_rookPin : mem (@Board.pinned sampleBuild
    (@Board.runOps sampleBuild Board.clear rookPin) 4 .white) 12 = true := by
  let _ := sampleBuild
  have hops : OpsOkAt (fun _ => none) rookPin := ⟨rfl, rfl, rfl, trivial⟩
  have hhides : Hides (rookPin.foldl PieceOp.apply fun _ => none) .black .rook 60 4 12 := by
    constructor <;> decide +kernel
  refine (Consistent.pinned_exact (Consistent.clear.runOps hops) 4 .white 12).mpr ?_
  exact ⟨⟨.rook, rfl⟩, by decide, 60, .rook, .inr (.inl rfl), rfl, hhides⟩

end Hides

end HoiChess.Chess
