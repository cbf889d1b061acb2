import HoiChess.Chess.Rules

/-!
# Positions that can arise

`Sane` collects what holds of every position that legal play reaches: it is
`Valid`, with one king each, no pawn on the first or last rank and the side
that moved not in check, and it has castling rights only with king and rook at
home, and an en passant square only behind a pawn that just made a double
step, on no line of attack to the king.  `Sane.apply` shows that a legal move preserves it; what a move
does to the men of either side is said once, in `placement_enemy`,
`placement_king` and `placement_pawn`.
-/

namespace HoiChess.Chess.Rules

open Grid

/-! ## Pawn moves in coordinates -/

theorem occupied_eq_false {man : Placement} {sq : Square} :
    occupied man sq = false ↔ man sq = none := by
  unfold occupied; cases man sq <;> simp

theorem occupied_eq_true {man : Placement} {sq : Square} :
    occupied man sq = true ↔ man sq ≠ none := by
  unfold occupied; cases man sq <;> simp

theorem mem_pushes {man : Placement} {c : Color} {s t : Square} :
    t ∈ pushes man c s ↔
      (Along s (forward c) 1 t ∧ man t = none) ∨
        (rnk s = pawnRank c ∧ Along s (forward c) 2 t ∧ man t = none ∧
          ∃ u, Along s (forward c) 1 u ∧ man u = none) := by
  unfold pushes
  cases hu : step s (forward c) with
  | none =>
    have hno : ∀ k v, 0 < k → ¬ Along s (forward c) k v := by
      intro k v hk h
      obtain ⟨u, h1⟩ := h.exists_inner (j := 1) hk
      rw [step_eq_some.mpr h1] at hu
      cases hu
    simp [hno 1 t (by decide), hno 2 t (by decide)]
  | some u =>
    have h1 := step_eq_some.mp hu
    have hone : ∀ v, Along s (forward c) 1 v ↔ v = u :=
      fun v => ⟨fun h => h.unique h1, fun e => e ▸ h1⟩
    have htwo : ∀ v, Along s (forward c) 2 v ↔ step u (forward c) = some v := by
      intro v
      rw [step_eq_some]
      exact ⟨fun h => h1.sub h, fun h => h1.trans h⟩
    simp only [hone, htwo, exists_eq_left]
    by_cases ho : man u = none
    · simp only [occupied_eq_false.mpr ho, Bool.false_eq_true, if_false, List.mem_cons]
      by_cases hr : rnk s = pawnRank c
      · simp only [hr, if_true, List.mem_filter, Option.mem_toList, Bool.not_eq_true',
          occupied_eq_false, true_and, ho, and_true]
        constructor
        · rintro (rfl | h)
          · exact Or.inl ⟨rfl, ho⟩
          · exact Or.inr h
        · rintro (h | h)
          · exact Or.inl h.1
          · exact Or.inr h
      · simp only [hr, if_false, List.not_mem_nil, or_false, false_and]
        constructor
        · rintro rfl; exact ⟨rfl, ho⟩
        · exact fun h => h.1
    · simp only [occupied_eq_true.mpr ho, if_true, List.not_mem_nil, ho, and_false, or_false,
        false_iff]
      rintro ⟨rfl, h⟩
      exact ho h

/-- `t` lies `k` ranks ahead of `s`, as side `c` sees it. -/
def Ahead (c : Color) (k : ℕ) (s t : Square) : Prop :=
  match c with
  | .white => rnk t = rnk s + k
  | .black => rnk t + k = rnk s

theorem along_forward {c : Color} {s t : Square} {k : ℕ} (h : Along s (forward c) k t) :
    fil t = fil s ∧ Ahead c k s t := by
  obtain ⟨hx, hy⟩ := h
  rw [grid_x, grid_x] at hx
  rw [grid_y, grid_y] at hy
  cases c <;> simp only [forward, Ahead] at hx hy ⊢ <;> omega

/-- A pawn capture goes one rank forward and one file sideways. -/
theorem pawn_reach_coords {man : Placement} {c : Color} {s t : Square}
    (h : t ∈ reach man c .pawn s) :
    (fil t = fil s + 1 ∨ fil s = fil t + 1) ∧ Ahead c 1 s t := by
  have hg := (mem_reach.mp h).1
  rcases hg with ⟨d, hd, hx, hy⟩ | ⟨d, hd, _⟩
  · rw [grid_x, grid_x] at hx
    rw [grid_y, grid_y] at hy
    have hd' : d = (1, (forward c).2) ∨ d = (-1, (forward c).2) := by simpa [leapDirs] using hd
    cases c <;> simp only [forward, Ahead] at hd' ⊢ <;> rcases hd' with rfl | rfl <;>
      simp only at hx hy <;> omega
  · cases hd

/-- A pawn move leads forward, so never to the own first rank. -/
theorem pawn_targets_rank {man : Placement} {c : Color} {s t : Square} {capturing : Bool}
    (h : t ∈ targets man c .pawn capturing s) : ∃ k, 0 < k ∧ Ahead c k s t := by
  unfold targets at h
  split at h
  · rcases mem_pushes.mp h with ⟨ha, _⟩ | ⟨_, ha, _⟩
    · exact ⟨1, by decide, (along_forward ha).2⟩
    · exact ⟨2, by decide, (along_forward ha).2⟩
  · exact ⟨1, by decide, (pawn_reach_coords h).2⟩

theorem Ahead.ne {c : Color} {k : ℕ} {s t : Square} (hk : 0 < k) (h : Ahead c k s t) : s ≠ t := by
  rintro rfl
  cases c <;> simp only [Ahead] at h <;> omega

theorem targets_capture {man : Placement} {c : Color} {p : Piece} {s : Square} :
    targets man c p true s = reach man c p s := by
  simp [targets]

theorem targets_piece {man : Placement} {c : Color} {p : Piece} {s : Square} (hp : p ≠ .pawn)
    (capturing : Bool) : targets man c p capturing s = reach man c p s := by
  simp [targets, hp]

theorem targets_push {man : Placement} {c : Color} {s : Square} :
    targets man c .pawn false s = pushes man c s := by
  simp [targets]

/-- A pawn moves to the last rank exactly from the rank where the other side's pawns start. -/
theorem promotes_iff {man : Placement} {c : Color} {src dst : Square} {capturing : Bool}
    (h : dst ∈ targets man c .pawn capturing src) :
    rnk dst = lastRank c ↔ rnk src = pawnRank c.xside := by
  have hb := rnk_lt dst
  have key : (Ahead c 1 src dst) ∨ (rnk src = pawnRank c ∧ Ahead c 2 src dst) := by
    unfold targets at h
    split at h
    · rcases mem_pushes.mp h with ⟨ha, _⟩ | ⟨hr, ha, _⟩
      · exact Or.inl (along_forward ha).2
      · exact Or.inr ⟨hr, (along_forward ha).2⟩
    · exact Or.inl (pawn_reach_coords h).2
  cases c <;>
    simp only [Ahead, pawnRank, lastRank, Color.xside, rank1, rank2, rank7, rank8] at key ⊢ <;>
    omega

theorem ne_of_mem_targets {man : Placement} {c : Color} {p : Piece} {s t : Square}
    {capturing : Bool} (h : t ∈ targets man c p capturing s) : s ≠ t := by
  by_cases hp : p = .pawn
  · subst hp
    obtain ⟨k, hk, ha⟩ := pawn_targets_rank h
    exact ha.ne hk
  · rw [targets_piece hp] at h
    exact ne_of_mem_reach h

/-! ## What holds of every position -/

/-- The rank of an en passant square on which side `c` can capture. -/
def epRank : Color → Nat
  | .white => rank6
  | .black => rank3

/-- What is known about an en passant square `e` when side `c` is to move. -/
structure EpSane (man : Placement) (c : Color) (e : Square) : Prop where
  rank : rnk e = epRank c
  empty : man e = none
  pawn : ∀ v, Along e (forward c.xside) 1 v → man v = some (c.xside, .pawn)
  /-- No attack on the king passes over the en passant square. -/
  line : ∀ k s p, man k = some (c, .king) → man s = some (c.xside, p) →
    k ∈ reach man c.xside p s → ¬ Between s k e

/-- What `is_valid` and `is_legal` establish. -/
structure Valid (pos : Position) : Prop where
  king_exists : ∀ c, ∃ k, pos.man k = some (c, .king)
  king_unique : ∀ c k k', pos.man k = some (c, .king) → pos.man k' = some (c, .king) → k = k'
  pawns : ∀ c sq, pos.man sq = some (c, .pawn) → rnk sq ≠ rank1 ∧ rnk sq ≠ rank8
  safe : pos.Safe

structure Sane (pos : Position) : Prop extends Valid pos where
  rights : ∀ f, pos.right f = true →
    pos.man f.kingHome = some (f.color, .king) ∧ pos.man f.rookHome = some (f.color, .rook)
  ep : ∀ e, pos.ep = some e → EpSane pos.man pos.side e

variable {pos : Position}

/-- A capture never takes the king. -/
theorem Position.Carries.cap_ne_king {src dst : Square} {p q : Piece} (hsafe : pos.Safe)
    (h : pos.Carries src dst p (some q)) : q ≠ .king := by
  rintro rfl
  obtain ⟨hs, hd, ht⟩ := h
  rw [Option.isSome_some, targets_capture] at ht
  exact hsafe dst hd ⟨src, p, hs, ht⟩

theorem epVictim_along {c : Color} {man : Placement} {src dst : Square}
    (h : dst ∈ reach man c .pawn src) : Along dst (forward c.xside) 1 (epVictim src dst) := by
  have hr := (pawn_reach_coords h).2
  have hf : fil (epVictim src dst) = fil dst := by
    have := fil_lt dst; simp only [epVictim, mkSquare, fil]; unfold fil at this; omega
  have hk : rnk (epVictim src dst) = rnk src := by
    have := fil_lt dst; simp only [epVictim, mkSquare, rnk]; unfold rnk fil at *; omega
  constructor
  · rw [grid_x, grid_x, hf]
    cases c <;> simp [forward, Color.xside]
  · rw [grid_y, grid_y, hk]
    cases c <;> simp only [forward, Color.xside, Ahead] at hr ⊢ <;> omega

/-- The pawn that an en passant capture removes. -/
theorem Sane.victim (h : Sane pos) {src dst : Square} (he : pos.ep = some dst)
    (hr : dst ∈ reach pos.man pos.side .pawn src) :
    pos.man (epVictim src dst) = some (pos.side.xside, .pawn) :=
  (h.ep dst he).pawn _ (epVictim_along hr)

/-! ## What a move does to the board -/

namespace Ply

def piece : Ply → Piece
  | move _ _ p _ => p
  | promote _ _ _ _ | enpassant _ _ => .pawn
  | castle _ => .king

/-- The piece that stands on the destination afterwards. -/
def placed : Ply → Piece
  | move _ _ p _ | promote _ _ p _ => p
  | enpassant _ _ => .pawn
  | castle _ => .king

def captured : Ply → Option Piece
  | move _ _ _ cap | promote _ _ _ cap => cap
  | enpassant _ _ => some .pawn
  | castle _ => none

/-- The square on which a man of the other side disappears. -/
def victim : Ply → Option Square
  | move _ dst _ cap | promote _ dst _ cap => cap.map (fun _ => dst)
  | enpassant src dst => some (epVictim src dst)
  | castle _ => none

/-- Where the rook of a castling move comes from and where it goes. -/
def rookMove : Ply → Option (Square × Square)
  | castle f => some (f.rookHome, f.transit)
  | _ => none

end Ply

theorem between_kingDest (f : CastleFlag) : Between f.kingHome f.rookHome f.kingDest := by
  rw [← mem_rayBb]
  cases f <;> decide

theorem between_transit (f : CastleFlag) : Between f.kingHome f.rookHome f.transit := by
  rw [← mem_rayBb]
  cases f <;> decide

/-- The moving man stands where the move starts. -/
theorem Position.Pseudo.man_src {ply : Ply} (h : pos.Pseudo ply) :
    pos.man ply.src = some (pos.side, ply.piece) := by
  cases ply with
  | move src dst p cap => exact h.1.1
  | promote src dst p cap => exact h.1.1
  | enpassant src dst => exact h.1
  | castle f => exact h.2.2.1

theorem Position.Pseudo.src_ne_dst {ply : Ply} (h : pos.Pseudo ply) : ply.src ≠ ply.dst := by
  cases ply with
  | move src dst p cap => exact ne_of_mem_targets h.1.2.2
  | promote src dst p cap => exact ne_of_mem_targets h.1.2.2
  | enpassant src dst => exact ne_of_mem_reach h.2.2
  | castle f => cases f <;> decide

/-- No own man stands where the move ends. -/
theorem Sane.man_dst (hs : Sane pos) {ply : Ply} (h : pos.Pseudo ply) :
    pos.man ply.dst = if ply.victim = some ply.dst then
      ply.captured.map (fun q => (pos.side.xside, q)) else none := by
  cases ply with
  | move src dst p cap => rw [Ply.dst, h.1.2.1]; cases cap <;> simp [Ply.victim, Ply.captured]
  | promote src dst p cap => rw [Ply.dst, h.1.2.1]; cases cap <;> simp [Ply.victim, Ply.captured]
  | enpassant src dst =>
    have hv := hs.victim h.2.1 h.2.2
    have he := (hs.ep dst h.2.1).empty
    have hne : epVictim src dst ≠ dst := by
      intro e
      rw [e, he] at hv
      cases hv
    simp [Ply.dst, Ply.victim, he, hne]
  | castle f =>
    simp only [Ply.dst, Ply.victim]
    exact h.2.2.2.2.1 _ (between_kingDest f)

/-- **What stands where after a move.** -/
theorem placement_eq {ply : Ply} (h : pos.Pseudo ply) (sq : Square) :
    pos.placement ply sq =
      if sq = ply.dst then some (pos.side, ply.placed)
      else if sq = ply.src ∨ ply.victim = some sq then none
      else match ply.rookMove with
        | some r => if sq = r.2 then some (pos.side, .rook) else if sq = r.1 then none
          else pos.man sq
        | none => pos.man sq := by
  have hne := h.src_ne_dst
  cases ply with
  | move src dst p cap =>
    by_cases e : sq = dst
    · subst e; simp [Position.placement, Ply.dst, Ply.placed]
    · have hv : Ply.victim (.move src dst p cap) ≠ some sq := by
        cases cap <;> simp [Ply.victim, Ne.symm e]
      simp only [Position.placement, Ply.dst, Ply.src, Ply.rookMove, e, if_false, hv, or_false,
        Function.update_of_ne e]
      by_cases e' : sq = src
      · subst e'; simp
      · simp [e']
  | promote src dst p cap =>
    by_cases e : sq = dst
    · subst e; simp [Position.placement, Ply.dst, Ply.placed]
    · have hv : Ply.victim (.promote src dst p cap) ≠ some sq := by
        cases cap <;> simp [Ply.victim, Ne.symm e]
      simp only [Position.placement, Ply.dst, Ply.src, Ply.rookMove, e, if_false, hv, or_false,
        Function.update_of_ne e]
      by_cases e' : sq = src
      · subst e'; simp
      · simp [e']
  | enpassant src dst =>
    have hv : epVictim src dst ≠ dst := by
      have := epVictim_along h.2.2
      exact (this.ne (by cases pos.side <;> decide) Nat.one_pos).symm
    simp only [Position.placement, Ply.dst, Ply.src, Ply.rookMove, Ply.victim, Ply.placed]
    by_cases e : sq = dst
    · subst e; simp [Function.update_of_ne hv.symm]
    · by_cases ev : sq = epVictim src dst
      · simp [ev, hv]
      · simp only [Function.update_of_ne ev, Function.update_of_ne e, e, if_false]
        by_cases e' : sq = src
        · subst e'; simp
        · simp [e', Ne.symm ev]
  | castle f =>
    simp only [Position.placement, Ply.dst, Ply.src, Ply.rookMove, Ply.victim, Ply.placed,
      Function.update_apply]
    have hd : f.kingDest ≠ f.transit ∧ f.kingDest ≠ f.rookHome ∧ f.kingHome ≠ f.transit ∧
        f.kingHome ≠ f.rookHome := by cases f <;> decide
    obtain ⟨h1, h2, h3, h4⟩ := hd
    by_cases e : sq = f.kingDest
    · subst e; simp [h1, h2]
    · by_cases e' : sq = f.kingHome
      · subst e'; simp [h3, h4, e]
      · simp [e, e']

/-- The men of the other side stay, except for the victim. -/
theorem placement_enemy (hs : Sane pos) {ply : Ply} (h : pos.Pseudo ply) (sq : Square)
    (q : Piece) :
    pos.placement ply sq = some (pos.side.xside, q) ↔
      pos.man sq = some (pos.side.xside, q) ∧ ply.victim ≠ some sq := by
  have hsrc := h.man_src
  have hdst := hs.man_dst h
  have hside : ∀ p, some (pos.side, p) ≠ some (pos.side.xside, q) := by
    intro p e
    exact ne_xside pos.side (congrArg Prod.fst (Option.some.inj e))
  rw [placement_eq h]
  constructor
  · intro hp
    split at hp
    · exact absurd hp (hside _)
    split at hp
    · cases hp
    · rename_i h1 h2
      rw [not_or] at h2
      refine ⟨?_, h2.2⟩
      split at hp
      · split at hp
        · exact absurd hp (hside _)
        split at hp
        · cases hp
        · exact hp
      · exact hp
  · rintro ⟨hm, hv⟩
    have h1 : sq ≠ ply.dst := by
      rintro rfl
      rw [hdst, if_neg hv] at hm
      cases hm
    have h2 : sq ≠ ply.src := by
      rintro rfl
      rw [hsrc] at hm
      exact hside _ hm
    rw [if_neg h1, if_neg (not_or.mpr ⟨h2, hv⟩)]
    cases ply with
    | castle f =>
      simp only [Ply.rookMove]
      have h3 : sq ≠ f.transit := by
        rintro rfl
        rw [h.2.2.2.2.1 _ (between_transit f)] at hm
        cases hm
      have h4 : sq ≠ f.rookHome := by
        rintro rfl
        rw [h.2.2.2.1] at hm
        exact hside _ hm
      rw [if_neg h3, if_neg h4, hm]
    | _ => exact hm

/-- The own men are the moved ones and those that stay. -/
theorem placement_own {ply : Ply} (h : pos.Pseudo ply) {sq : Square} {q : Piece}
    (hp : pos.placement ply sq = some (pos.side, q)) :
    (sq = ply.dst ∧ q = ply.placed) ∨
      (∃ r, ply.rookMove = some r ∧ sq = r.2 ∧ q = .rook) ∨
      (sq ≠ ply.src ∧ sq ≠ ply.dst ∧ pos.man sq = some (pos.side, q)) := by
  rw [placement_eq h] at hp
  split at hp
  · rename_i e
    exact Or.inl ⟨e, by cases hp; rfl⟩
  split at hp
  · cases hp
  · rename_i h1 h2
    rw [not_or] at h2
    split at hp
    · rename_i r hr
      split at hp
      · rename_i e
        exact Or.inr (Or.inl ⟨r, hr, e, by cases hp; rfl⟩)
      split at hp
      · cases hp
      · exact Or.inr (Or.inr ⟨h2.1, h1, hp⟩)
    · exact Or.inr (Or.inr ⟨h2.1, h1, hp⟩)

/-- An own man that is not touched stays. -/
theorem placement_stays {ply : Ply} (h : pos.Pseudo ply) {sq : Square} {m : Man}
    (hm : pos.man sq = some m) (h1 : sq ≠ ply.src) (h2 : sq ≠ ply.dst) (h3 : ply.victim ≠ some sq)
    (h4 : ∀ r, ply.rookMove = some r → sq ≠ r.1 ∧ sq ≠ r.2) :
    pos.placement ply sq = some m := by
  rw [placement_eq h, if_neg h2, if_neg (not_or.mpr ⟨h1, h3⟩)]
  cases hr : ply.rookMove with
  | none => exact hm
  | some r =>
    obtain ⟨h5, h6⟩ := h4 r hr
    simp only
    rw [if_neg h6, if_neg h5, hm]

theorem Position.Pseudo.placed_eq_king {ply : Ply} (h : pos.Pseudo ply) :
    ply.placed = .king ↔ ply.piece = .king := by
  cases ply with
  | promote src dst p cap =>
    have hp := h.2.2
    constructor
    · intro e
      simp only [Ply.placed] at e
      subst e
      simp [promotionPieces] at hp
    · intro e; cases e
  | _ => simp [Ply.placed, Ply.piece]

theorem Position.Pseudo.victim_ne_king (hs : Sane pos) {ply : Ply} (h : pos.Pseudo ply)
    {k : Square} (hk : pos.man k = some (pos.side.xside, .king)) : ply.victim ≠ some k := by
  have key : ∀ src dst p cap, pos.Carries src dst p cap → cap.map (fun _ => dst) ≠ some k := by
    intro src dst p cap hc hv
    cases cap with
    | none => cases hv
    | some q =>
      cases hv
      have hd := hc.2.1
      rw [hk] at hd
      have hq : q = .king := (congrArg Prod.snd (Option.some.inj hd)).symm
      exact hc.cap_ne_king hs.safe hq
  cases ply with
  | move src dst p cap => exact key _ _ _ _ h.1
  | promote src dst p cap => exact key _ _ _ _ h.1
  | enpassant src dst =>
    intro e
    have hv := hs.victim h.2.1 h.2.2
    cases e
    rw [hk] at hv
    cases hv
  | castle f => simp [Ply.victim]

/-- **The king of the moving side.** -/
theorem placement_king (hs : Sane pos) {ply : Ply} (h : pos.Pseudo ply) (sq : Square) :
    pos.placement ply sq = some (pos.side, .king) ↔
      if ply.piece = .king then sq = ply.dst else pos.man sq = some (pos.side, .king) := by
  constructor
  · intro hp
    rcases placement_own h hp with ⟨h1, h2⟩ | ⟨r, _, _, h3⟩ | ⟨h1, _, h3⟩
    · rw [if_pos (h.placed_eq_king.mp h2.symm)]
      exact h1
    · cases h3
    · rw [if_neg, h3]
      intro hk
      apply h1
      exact hs.king_unique _ _ _ h3 (hk ▸ h.man_src)
  · intro hk
    split at hk
    · rename_i hking
      rw [placement_eq h, if_pos hk, h.placed_eq_king.mpr hking]
    · rename_i hking
      have hside : ∀ q, some (pos.side.xside, q) ≠ some (pos.side, Piece.king) := by
        intro q e
        exact xside_ne pos.side (congrArg Prod.fst (Option.some.inj e))
      have h2 : sq ≠ ply.dst := by
        rintro rfl
        rw [hs.man_dst h] at hk
        split at hk
        · cases hc : ply.captured with
          | none => rw [hc] at hk; cases hk
          | some q => rw [hc] at hk; exact hside _ hk
        · cases hk
      apply placement_stays h hk _ h2
      · intro hv
        cases ply with
        | move src dst p cap =>
          cases cap with
          | none => cases hv
          | some q => cases hv; exact h2 rfl
        | promote src dst p cap =>
          cases cap with
          | none => cases hv
          | some q => cases hv; exact h2 rfl
        | enpassant src dst =>
          cases hv
          rw [hs.victim h.2.1 h.2.2] at hk
          exact hside _ hk
        | castle f => cases hv
      · intro r hr
        cases ply with
        | castle f => exact absurd rfl hking
        | _ => cases hr
      · rintro rfl
        rw [h.man_src] at hk
        exact hking (congrArg Prod.snd (Option.some.inj hk))

/-- A pawn that stands somewhere after a move stood there before or has just moved there. -/
theorem placement_pawn (hs : Sane pos) {ply : Ply} (h : pos.Pseudo ply) {c : Color} {sq : Square}
    (hp : pos.placement ply sq = some (c, .pawn)) :
    pos.man sq = some (c, .pawn) ∨
      (c = pos.side ∧ sq = ply.dst ∧ ply.placed = .pawn) := by
  rcases eq_or_eq_xside pos.side c with rfl | rfl
  · rcases placement_own h hp with ⟨h1, h2⟩ | ⟨r, _, _, h3⟩ | ⟨_, _, h3⟩
    · exact Or.inr ⟨rfl, h1, h2.symm⟩
    · cases h3
    · exact Or.inl h3
  · exact Or.inl ((placement_enemy hs h sq _).mp hp).1

/-! ## Lines that pass the square a pawn jumped over -/

/-- Three squares in a row: a line through the first two reaches the third or ends there. -/
theorem between_third {a b s e t : Square} {d : Dir} (hd : d ∈ kingDirs) (he : Along s d 1 e)
    (ht : Along s d 2 t) (h1 : Between a b s) (h2 : Between a b e) :
    Between a b t ∨ t = a ∨ t = b := by
  obtain ⟨f, hf, i, j, i0, ij, hs, hb⟩ := h1
  rw [hb.between_iff hf (by omega)] at h2
  obtain ⟨i', i0', ij', he'⟩ := h2
  have hx : d.1 = ((i' : ℤ) - i) * f.1 := by
    have := he.1; have := hs.1; have := he'.1; push_cast at *; linarith
  have hy : d.2 = ((i' : ℤ) - i) * f.2 := by
    have := he.2; have := hs.2; have := he'.2; push_cast at *; linarith
  obtain ⟨d1, d2, d3, d4, d5⟩ := unit_bounds hd
  obtain ⟨f1, f2, f3, f4, f5⟩ := unit_bounds hf
  have hi : (i' : ℤ) - i = 1 ∨ (i' : ℤ) - i = -1 := by
    have c1 : f.1 = -1 ∨ f.1 = 0 ∨ f.1 = 1 := by omega
    have c2 : f.2 = -1 ∨ f.2 = 0 ∨ f.2 = 1 := by omega
    rcases c1 with c1 | c1 | c1 <;> rcases c2 with c2 | c2 | c2 <;> rw [c1] at hx <;>
      rw [c2] at hy <;> omega
  rcases hi with hi | hi
  · have ha : Along a f (i + 2) t := by
      constructor
      · have := ht.1; have := hs.1; rw [hx, hi] at *; push_cast at *; linarith
      · have := ht.2; have := hs.2; rw [hy, hi] at *; push_cast at *; linarith
    rcases Nat.lt_or_ge (i + 2) j with h | h
    · exact Or.inl ⟨f, hf, i + 2, j, by omega, h, ha, hb⟩
    · have : i + 2 = j := by omega
      rw [this] at ha
      exact Or.inr (Or.inr (ha.unique hb))
  · have ha : Along a f (i - 2) t := by
      have e2 : ((i - 2 : ℕ) : ℤ) = (i : ℤ) - 2 := by omega
      constructor
      · have := ht.1; have := hs.1; rw [hx, hi] at *; rw [e2]; push_cast at *; linarith
      · have := ht.2; have := hs.2; rw [hy, hi] at *; rw [e2]; push_cast at *; linarith
    rcases Nat.eq_zero_or_pos (i - 2) with h | h
    · rw [h, along_zero] at ha
      exact Or.inr (Or.inl ha)
    · exact Or.inl ⟨f, hf, i - 2, j, h, by omega, ha, hb⟩

theorem forward_unit (c : Color) : forward c ∈ kingDirs := by cases c <;> decide

/-- A double step in coordinates. -/
theorem passed_eq_some {ply : Ply} (h : pos.Pseudo ply) {e : Square} (he : ply.passed = some e) :
    ∃ s t, ply = .move s t .pawn none ∧ Along s (forward pos.side) 1 e ∧
      Along s (forward pos.side) 2 t ∧ pos.man e = none ∧ pos.man t = none ∧
      rnk s = pawnRank pos.side := by
  cases ply with
  | move s t p cap =>
    cases p <;> cases cap <;> try cases he
    simp only [Ply.passed] at he
    split at he
    · rename_i hr
      cases he
      have ht := h.1.2.2
      rw [Option.isSome_none, targets_push] at ht
      rcases mem_pushes.mp ht with ⟨ha, _⟩ | ⟨hp, ha, hn, u, hu, hun⟩
      · have := (along_forward ha).2
        cases hc : pos.side <;> rw [hc] at this <;> simp only [Ahead] at this <;> omega
      · refine ⟨s, t, rfl, ?_⟩
        have hu' := along_forward hu
        have ht' := along_forward ha
        have hm : mkSquare ⟨(rnk s + rnk t) / 2, by
            have := rnk_lt s; have := rnk_lt t; omega⟩ ⟨fil s, fil_lt s⟩ = u := by
          have hf := fil_lt s
          have hru := hu'.2
          have hrt := ht'.2
          have hmid : (rnk s + rnk t) / 2 = rnk u := by
            cases hc : pos.side <;> rw [hc] at hru hrt <;> simp only [Ahead] at hru hrt <;> omega
          apply Fin.ext
          simp only [mkSquare]
          rw [square_val u, hmid, hu'.1]
        rw [hm]
        exact ⟨hu, ha, hun, hn, hp⟩
    · cases he
  | _ => cases he

/-- **A double step leaves a well-behaved en passant square.** -/
theorem Sane.ep_of_passed (hs : Sane pos) {ply : Ply} (h : pos.Pseudo ply)
    (hsafe : (pos.apply ply).Safe) {e : Square} (he : ply.passed = some e) :
    EpSane (pos.placement ply) pos.side.xside e := by
  obtain ⟨s, t, rfl, hse, hst, hen, htn, hr⟩ := passed_eq_some h he
  have hes : e ≠ s := (hse.ne (forward_unit _) Nat.one_pos).symm
  have het : Along e (forward pos.side) 1 t := hse.sub hst
  have hne : e ≠ t := het.ne (forward_unit _) Nat.one_pos
  have hpl : ∀ sq, pos.placement (.move s t .pawn none) sq =
      if sq = t then some (pos.side, .pawn) else if sq = s then none else pos.man sq := by
    intro sq
    rw [placement_eq h]
    simp [Ply.dst, Ply.src, Ply.placed, Ply.victim, Ply.rookMove]
  refine ⟨?_, ?_, ?_, ?_⟩
  · have := (along_forward hse).2
    unfold Ahead at this
    rw [hr] at this
    cases hc : pos.side <;> rw [hc] at this <;>
      simp only [pawnRank, epRank, Color.xside, rank2, rank3, rank6, rank7] at this ⊢ <;> omega
  · rw [hpl, if_neg hne, if_neg hes, hen]
  · intro v hv
    rw [xside_xside] at hv ⊢
    rw [hpl, if_pos (hv.unique het)]
  · intro k a p hk ha hreach hbt
    rw [xside_xside] at ha hreach
    have hat : a ≠ t := by
      rintro rfl
      rw [hpl, if_pos rfl] at ha
      have hp : Piece.pawn = p := congrArg Prod.snd (Option.some.inj ha)
      subst hp
      rcases (mem_reach.mp hreach).1 with ⟨d, hd, hl⟩ | ⟨d, hd, _⟩
      · exact not_between_of_leap hd hl hbt
      · cases hd
    have hkt : k ≠ t := by
      rintro rfl
      rw [hpl, if_pos rfl] at hk
      exact absurd (congrArg Prod.snd (Option.some.inj hk)) Piece.noConfusion
    have hma : pos.man a = some (pos.side, p) := by
      rw [hpl, if_neg hat] at ha
      split at ha
      · cases ha
      · exact ha
    have hmk : pos.man k = some (pos.side.xside, .king) := by
      rw [hpl, if_neg hkt] at hk
      split at hk
      · cases hk
      · exact hk
    have hbefore : k ∉ reach pos.man pos.side p a :=
      fun hr => hs.safe k hmk ⟨a, p, hma, hr⟩
    obtain ⟨hg, hclear⟩ := mem_reach.mp hreach
    have hbs : Between a k s := by
      by_contra hbs
      apply hbefore
      rw [mem_reach]
      refine ⟨hg, fun u hu => ?_⟩
      have hun := hclear u hu
      rw [hpl] at hun
      split at hun
      · cases hun
      split at hun
      · rename_i e'
        subst e'
        exact absurd hu hbs
      · exact hun
    rcases between_third (forward_unit _) hse hst hbs hbt with hb | rfl | rfl
    · have := hclear t hb
      rw [hpl, if_pos rfl] at this
      cases this
    · exact hat rfl
    · exact hkt rfl

/-! ## Legal moves preserve sanity -/

theorem dst_rank_of_pawn {ply : Ply} (hs : Sane pos) (h : pos.Pseudo ply)
    (hp : ply.placed = .pawn) : rnk ply.dst ≠ rank1 ∧ rnk ply.dst ≠ rank8 := by
  cases ply with
  | move src dst p cap =>
    simp only [Ply.placed] at hp
    subst hp
    have hlast : rnk dst ≠ lastRank pos.side := fun e => h.2 ⟨rfl, e⟩
    have hsrc := hs.pawns _ _ h.1.1
    obtain ⟨k, hk, hr⟩ := pawn_targets_rank h.1.2.2
    have hb := rnk_lt src
    simp only [Ply.dst]
    unfold Ahead at hr
    cases hc : pos.side <;> rw [hc] at hlast hr <;>
      simp only [lastRank, rank1, rank8] at hlast hr hsrc ⊢ <;> omega
  | promote src dst p cap =>
    simp only [Ply.placed] at hp
    subst hp
    have := h.2.2
    simp [promotionPieces] at this
  | enpassant src dst =>
    have := (hs.ep dst h.2.1).rank
    simp only [Ply.dst, this]
    cases pos.side <;> decide
  | castle f => cases hp

/-- A castling right that survives a move still has king and rook at home. -/
theorem home_stays (hs : Sane pos) {ply : Ply} (h : pos.Pseudo ply) {f : CastleFlag}
    (hr : (pos.apply ply).right f = true) :
    pos.placement ply f.kingHome = some (f.color, .king) ∧
      pos.placement ply f.rookHome = some (f.color, .rook) := by
  have hr' : (pos.right f = true ∧ ply.touches f.kingHome = false) ∧
      ply.touches f.rookHome = false := by
    simpa [Position.apply] using hr
  obtain ⟨⟨hr, hk⟩, hrk⟩ := hr'
  simp only [Ply.touches, Bool.or_eq_false_iff, decide_eq_false_iff_not] at hk hrk
  obtain ⟨hmk, hmr⟩ := hs.rights f hr
  have hvic : ∀ sq p, pos.man sq = some (f.color, p) → p ≠ .pawn → ply.dst ≠ sq →
      ply.victim ≠ some sq := by
    intro sq p hm hp hd hv
    cases ply with
    | move src dst p' cap =>
      cases cap with
      | none => cases hv
      | some q => cases hv; exact hd rfl
    | promote src dst p' cap =>
      cases cap with
      | none => cases hv
      | some q => cases hv; exact hd rfl
    | enpassant src dst =>
      cases hv
      rw [hs.victim h.2.1 h.2.2] at hm
      exact hp (congrArg Prod.snd (Option.some.inj hm)).symm
    | castle f' => cases hv
  have hrook : ∀ r, ply.rookMove = some r → (f.kingHome ≠ r.1 ∧ f.kingHome ≠ r.2) ∧
      (f.rookHome ≠ r.1 ∧ f.rookHome ≠ r.2) := by
    intro r e
    cases ply with
    | castle f' =>
      cases e
      have := hk.1
      simp only [Ply.src] at this
      cases f <;> cases f' <;> first | (exact absurd rfl this) | decide
    | _ => cases e
  exact ⟨placement_stays h hmk (Ne.symm hk.1) (Ne.symm hk.2) (hvic _ _ hmk (by decide) hk.2)
      (fun r e => (hrook r e).1),
    placement_stays h hmr (Ne.symm hrk.1) (Ne.symm hrk.2) (hvic _ _ hmr (by decide) hrk.2)
      (fun r e => (hrook r e).2)⟩

theorem placement_king_any (hs : Sane pos) {ply : Ply} (h : pos.Pseudo ply) (c : Color) :
    ∃ k, ∀ sq, pos.placement ply sq = some (c, .king) ↔ sq = k := by
  rcases eq_or_eq_xside pos.side c with rfl | rfl
  · by_cases hk : ply.piece = .king
    · refine ⟨ply.dst, fun sq => ?_⟩
      rw [placement_king hs h, if_pos hk]
    · obtain ⟨k, hkk⟩ := hs.king_exists pos.side
      refine ⟨k, fun sq => ?_⟩
      rw [placement_king hs h, if_neg hk]
      exact ⟨fun e => hs.king_unique _ _ _ e hkk, fun e => e ▸ hkk⟩
  · obtain ⟨k, hkk⟩ := hs.king_exists pos.side.xside
    refine ⟨k, fun sq => ?_⟩
    rw [placement_enemy hs h]
    constructor
    · exact fun e => hs.king_unique _ _ _ e.1 hkk
    · rintro rfl
      exact ⟨hkk, h.victim_ne_king hs hkk⟩

/-- **A legal move leads from a sane position to a sane position.** -/
theorem Sane.apply (hs : Sane pos) {ply : Ply} (h : pos.Legal ply) : Sane (pos.apply ply) where
  king_exists c := by
    obtain ⟨k, hk⟩ := placement_king_any hs h.1 c
    exact ⟨k, (hk k).mpr rfl⟩
  king_unique c a b ha hb := by
    obtain ⟨k, hk⟩ := placement_king_any hs h.1 c
    exact ((hk a).mp ha).trans ((hk b).mp hb).symm
  pawns c sq hp := by
    rcases placement_pawn hs h.1 hp with hm | ⟨_, rfl, hpl⟩
    · exact hs.pawns c sq hm
    · exact dst_rank_of_pawn hs h.1 hpl
  safe := h.2
  rights f hr := home_stays hs h.1 hr
  ep e he := hs.ep_of_passed h.1 h.2 he

/-- **Passing, when not in check, leads from a sane position to a sane position.** -/
theorem Sane.pass (hs : Sane pos) (h : ¬ pos.InCheck) : Sane pos.pass where
  king_exists := hs.king_exists
  king_unique := hs.king_unique
  pawns := hs.pawns
  safe sq hk ha := by
    simp only [Position.pass, xside_xside] at hk ha
    exact h ⟨sq, hk, ha⟩
  rights := hs.rights
  ep e he := by simp [Position.pass] at he

end HoiChess.Chess.Rules
