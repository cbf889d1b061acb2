import HoiChess.Common.Clock
import Mathlib.Data.Nat.ModEq
import Mathlib.Tactic.Linarith
import Mathlib.Tactic.Ring

/-!
# Time control

`allocate_time` divides the time that is safely left by the moves to come, leaves out twice what
the last move took too long, and allows twice as much in the end, but no more than what is left.
The limits are in order and never exceed that (`allocateTime_within`).  The cap on the hard limit
is written back into the limit, though, which is then larger than before if it had been more than
half of what is left (`margin_honoured_iff`).
-/

namespace HoiChess.Clock

/-! ## The operations -/

/-- `from_s(s)` -/
def fromS (s : Int) : Int := s * 1000

/-- `Clock(moves, base_secs, inc_secs)`, which asserts that `base_secs` is not 0. -/
def timed (moves baseSecs incSecs : BitVec 32) : Clock where
  mode := if moves = 0 ∧ incSecs = 0 then .suddendeath else if incSecs = 0 then .conv else .incr
  running := false
  startTime := 0
  stopTime := 0
  limit := 0
  hardLimit := 0
  remainingTime := fromS baseSecs.toNat
  remainingMoves := moves
  baseTime := fromS baseSecs.toNat
  baseMoves := moves
  increment := fromS incSecs.toNat
  overTime := 0
  lostTime := 0

variable (c : Clock)

def turnBack (now : Realtime) : Clock :=
  let c := { c with overTime := 0, lostTime := 0 }
  if !c.running then c else { c with startTime := now }

def setRemainingTime (t : Int) : Clock :=
  { c with
    lostTime := if t < c.remainingTime then c.remainingTime - t else 0
    remainingTime := t }

/-- `remaining_safe` -/
def remainingSafe : Int := c.remainingTime - 2 * c.lostTime - fromS 1

/-- The share of a move in the remaining time, by the mode, or `none` where an assertion fails. -/
def share (remainingSafe : Int) : Option Int :=
  match c.mode with
  | .conv =>
    if 0 < c.remainingMoves.toNat then some (remainingSafe.tdiv c.remainingMoves.toNat) else none
  | .incr => some (remainingSafe.tdiv 20 + c.increment)
  | .suddendeath => some (remainingSafe.tdiv 40)
  | .none | .exact => none

/-- The limits for a share. -/
def withLimits (remainingSafe limitTmp : Int) : Clock :=
  let limit := if limitTmp < 2 * c.overTime then 0 else limitTmp - 2 * c.overTime
  let hardLimit := 2 * limit
  if hardLimit > remainingSafe then { c with limit := remainingSafe, hardLimit := remainingSafe }
  else { c with limit := limit, hardLimit := hardLimit }

/-- `none` where an assertion fails. -/
def allocateTime : Option Clock :=
  if c.mode = .none ∨ c.mode = .exact then some c
  else if c.remainingSafe ≤ 0 then some { c with limit := 0, hardLimit := 0 }
  else (c.share c.remainingSafe).map (c.withLimits c.remainingSafe)

def allocateMoreTime (t : Int) : Clock × Bool :=
  if c.mode = .none ∨ c.mode = .exact then (c, false)
  else ({ c with limit := if c.limit + t > c.hardLimit then c.hardLimit else c.limit + t }, true)

/-! ## The clocks of timed games -/

/-- What becomes of a clock for a time control. -/
inductive Ticking : Clock → Prop
  | timed (moves baseSecs incSecs : BitVec 32) : Ticking (timed moves baseSecs incSecs)
  | start {c : Clock} (h : Ticking c) (now : Realtime) : Ticking (c.start now)
  | stop {c : Clock} (h : Ticking c) (now : Realtime) : Ticking (c.stop now)
  | turnBack {c : Clock} (h : Ticking c) (now : Realtime) : Ticking (c.turnBack now)
  | setRemainingTime {c : Clock} (h : Ticking c) (t : Int) : Ticking (c.setRemainingTime t)
  | allocateTime {c c' : Clock} (h : Ticking c) (hc : c.allocateTime = some c') : Ticking c'
  | allocateMoreTime {c : Clock} (h : Ticking c) {t : Int} (ht : 0 ≤ t) :
      Ticking (c.allocateMoreTime t).1

/-- What all of them keep. -/
structure Sound : Prop where
  timed : c.mode ≠ .none ∧ c.mode ≠ .exact
  moves : c.mode = .conv → 0 < c.remainingMoves.toNat ∧ 0 < c.baseMoves.toNat
  overrun : 0 ≤ c.overTime
  lost : 0 ≤ c.lostTime
  limits : 0 ≤ c.limit ∧ c.limit ≤ c.hardLimit

variable {c}

theorem toNat_sub_one {x : BitVec 32} (h : 0 < x.toNat) : (x - 1).toNat = x.toNat - 1 := by
  have hx := x.isLt
  rw [BitVec.toNat_sub]
  show (2 ^ 32 - 1 + x.toNat) % 2 ^ 32 = x.toNat - 1
  omega

/-- A stopped clock in conventional mode has moves left. -/
theorem updateRemaining_moves (h : c.mode = .conv → 0 < c.remainingMoves.toNat ∧ 0 < c.baseMoves.toNat)
    (elapsed : Int) : c.mode = .conv →
      0 < (c.updateRemaining elapsed).remainingMoves.toNat ∧ 0 < c.baseMoves.toNat := by
  intro hmode
  obtain ⟨_, hbase⟩ := h hmode
  refine ⟨?_, hbase⟩
  unfold updateRemaining
  rw [hmode]
  simp only
  split
  · exact hbase
  · rename_i hne
    exact Nat.pos_of_ne_zero fun h0 => hne (BitVec.eq_of_toNat_eq h0)

/-- What `stop` leaves alone. -/
theorem updateRemaining_fields (c : Clock) (elapsed : Int) :
    (c.updateRemaining elapsed).mode = c.mode ∧ (c.updateRemaining elapsed).baseMoves = c.baseMoves ∧
      (c.updateRemaining elapsed).baseTime = c.baseTime ∧
      (c.updateRemaining elapsed).lostTime = c.lostTime ∧
      (c.updateRemaining elapsed).limit = c.limit ∧
      (c.updateRemaining elapsed).hardLimit = c.hardLimit := by
  unfold updateRemaining
  split
  · exact ⟨rfl, rfl, rfl, rfl, rfl, rfl⟩
  · exact ⟨rfl, rfl, rfl, rfl, rfl, rfl⟩
  · simp only
    split <;> exact ⟨rfl, rfl, rfl, rfl, rfl, rfl⟩
  · exact ⟨rfl, rfl, rfl, rfl, rfl, rfl⟩
  · exact ⟨rfl, rfl, rfl, rfl, rfl, rfl⟩

theorem Sound.stop (h : c.Sound) (now : Realtime) : (c.stop now).Sound := by
  unfold Clock.stop
  split
  · exact h
  · simp only
    have hfields := updateRemaining_fields { c with stopTime := now, running := false }
      (elapsedStopped { c with stopTime := now, running := false })
    have hrest := updateRemaining_moves (c := { c with stopTime := now, running := false }) h.moves
      (elapsedStopped { c with stopTime := now, running := false })
    generalize updateRemaining _ _ = c' at hfields hrest ⊢
    obtain ⟨hmode, hmoves, _, hlost, hlimit, hhard⟩ := hfields
    refine ⟨?_, fun hconv => ?_, ?_, ?_, ?_⟩
    · rw [hmode]
      exact h.timed
    · rw [hmoves]
      exact hrest (hmode.symm.trans hconv)
    · simp only
      split
      · rename_i hover
        linarith [hover.2]
      · exact le_refl 0
    · rw [hlost]
      exact h.lost
    · rw [hlimit, hhard]
      exact h.limits

theorem withLimits_ordered (h : c.Sound) {safe limitTmp : Int} (hsafe : 0 < safe) :
    0 ≤ (c.withLimits safe limitTmp).limit ∧
      (c.withLimits safe limitTmp).limit ≤ (c.withLimits safe limitTmp).hardLimit ∧
      (c.withLimits safe limitTmp).hardLimit ≤ safe := by
  have hover := h.overrun
  unfold withLimits
  simp only
  split_ifs <;> refine ⟨?_, ?_, ?_⟩ <;> simp only <;> omega

/-- What `allocate_time` does to a clock of a timed game. -/
theorem allocateTime_cases (h : c.Sound) :
    (c.remainingSafe ≤ 0 ∧ c.allocateTime = some { c with limit := 0, hardLimit := 0 }) ∨
    ∃ limitTmp, 0 < c.remainingSafe ∧ c.share c.remainingSafe = some limitTmp ∧
      c.allocateTime = some (c.withLimits c.remainingSafe limitTmp) := by
  have hmode : ¬ (c.mode = .none ∨ c.mode = .exact) := not_or.mpr h.timed
  unfold allocateTime
  rw [if_neg hmode]
  by_cases hsafe : c.remainingSafe ≤ 0
  · exact .inl ⟨hsafe, if_pos hsafe⟩
  · have hshare : ∃ limitTmp, c.share c.remainingSafe = some limitTmp := by
      unfold share
      cases hm : c.mode with
      | none => exact absurd hm h.timed.1
      | exact => exact absurd hm h.timed.2
      | conv => exact ⟨_, if_pos (h.moves hm).1⟩
      | incr => exact ⟨_, rfl⟩
      | suddendeath => exact ⟨_, rfl⟩
    obtain ⟨limitTmp, hs⟩ := hshare
    refine .inr ⟨limitTmp, not_le.mp hsafe, hs, ?_⟩
    rw [if_neg hsafe, hs]
    rfl

/-- The time of a timed game can be allocated. -/
theorem exists_allocateTime (h : c.Sound) : ∃ c', c.allocateTime = some c' := by
  rcases allocateTime_cases h with ⟨_, he⟩ | ⟨_, _, _, he⟩
  · exact ⟨_, he⟩
  · exact ⟨_, he⟩

theorem withLimits_sound (h : c.Sound) {safe limitTmp : Int} (hsafe : 0 < safe) :
    (c.withLimits safe limitTmp).Sound := by
  obtain ⟨h1, h2, _⟩ := @withLimits_ordered _ h _ limitTmp hsafe
  have hrest : (c.withLimits safe limitTmp).mode = c.mode ∧
      (c.withLimits safe limitTmp).remainingMoves = c.remainingMoves ∧
      (c.withLimits safe limitTmp).baseMoves = c.baseMoves ∧
      (c.withLimits safe limitTmp).overTime = c.overTime ∧
      (c.withLimits safe limitTmp).lostTime = c.lostTime := by
    unfold withLimits
    simp only
    split_ifs <;> exact ⟨rfl, rfl, rfl, rfl, rfl⟩
  obtain ⟨hmode, hmoves, hbase, hover, hlost⟩ := hrest
  exact ⟨hmode ▸ h.timed, hmoves ▸ hbase ▸ hmode ▸ h.moves, hover ▸ h.overrun, hlost ▸ h.lost, h1, h2⟩

/-- More time never lowers the limit, and leaves it within the hard one. -/
theorem allocateMoreTime_limit (h : c.Sound) {t : Int} (ht : 0 ≤ t) :
    c.limit ≤ (c.allocateMoreTime t).1.limit ∧
      (c.allocateMoreTime t).1.limit ≤ (c.allocateMoreTime t).1.hardLimit := by
  obtain ⟨_, hle⟩ := h.limits
  unfold allocateMoreTime
  rw [if_neg (not_or.mpr h.timed)]
  simp only
  split
  · exact ⟨hle, le_refl _⟩
  · exact ⟨by linarith, by linarith⟩

/-- **All clocks of timed games are sound.** -/
theorem Ticking.sound (h : Ticking c) : c.Sound := by
  induction h with
  | timed moves baseSecs incSecs =>
    unfold Clock.timed
    refine ⟨?_, fun hm => ?_, le_refl 0, le_refl 0, le_refl 0, le_refl 0⟩
    · simp only
      split_ifs <;> exact ⟨nofun, nofun⟩
    · simp only at hm ⊢
      split_ifs at hm with h1 h2
      have hne : moves ≠ 0 := fun h0 => h1 ⟨h0, h2⟩
      have hpos : 0 < moves.toNat := Nat.pos_of_ne_zero fun h0 => hne (BitVec.eq_of_toNat_eq h0)
      exact ⟨hpos, hpos⟩
  | start _ now ih =>
    unfold Clock.start
    split
    · exact ih
    · exact ⟨ih.timed, ih.moves, ih.overrun, ih.lost, ih.limits⟩
  | stop _ now ih => exact ih.stop now
  | turnBack _ now ih =>
    unfold Clock.turnBack
    simp only
    split <;> exact ⟨ih.timed, ih.moves, le_refl 0, le_refl 0, ih.limits⟩
  | setRemainingTime _ t ih =>
    refine ⟨ih.timed, ih.moves, ih.overrun, ?_, ih.limits⟩
    unfold Clock.setRemainingTime
    simp only
    split
    · linarith
    · exact le_refl 0
  | allocateTime _ hc ih =>
    rcases allocateTime_cases ih with ⟨_, he⟩ | ⟨limitTmp, hsafe, _, he⟩
    · obtain rfl := Option.some.inj (he.symm.trans hc)
      exact ⟨ih.timed, ih.moves, ih.overrun, ih.lost, le_refl 0, le_refl 0⟩
    · obtain rfl := Option.some.inj (he.symm.trans hc)
      exact withLimits_sound ih hsafe
  | allocateMoreTime _ ht ih =>
    obtain ⟨h1, h2⟩ := allocateMoreTime_limit ih ht
    have hmode := not_or.mpr ih.timed
    unfold Clock.allocateMoreTime at h1 h2 ⊢
    rw [if_neg hmode] at h1 h2 ⊢
    exact ⟨ih.timed, ih.moves, ih.overrun, ih.lost, ih.limits.1.trans h1, h2⟩

/-! ## The limits -/

/-- **The limits never exceed the time that is safely left**, and more time keeps them in
order. -/
theorem allocateTime_within (h : Ticking c) :
    (∃ c', c.allocateTime = some c' ∧ 0 ≤ c'.limit ∧ c'.limit ≤ c'.hardLimit ∧
      c'.hardLimit ≤ max 0 (c.remainingTime - 2 * c.lostTime - 1000)) ∧
    ∀ t, 0 ≤ t → (c.allocateMoreTime t).1.limit ≤ (c.allocateMoreTime t).1.hardLimit ∧
      c.limit ≤ (c.allocateMoreTime t).1.limit := by
  have hs := h.sound
  refine ⟨?_, fun t ht => (allocateMoreTime_limit hs ht).symm⟩
  rcases allocateTime_cases hs with ⟨_, he⟩ | ⟨limitTmp, hsafe, _, he⟩
  · exact ⟨_, he, le_refl 0, le_refl 0, le_max_left _ _⟩
  · obtain ⟨h1, h2, h3⟩ := @withLimits_ordered _ hs _ limitTmp hsafe
    exact ⟨_, he, h1, h2, h3.trans (le_max_right _ _)⟩

/-- Five minutes for the game. -/
theorem allocateTime_within_blitz :
    (∃ c', (timed 0 300 0).allocateTime = some c' ∧ 0 ≤ c'.limit ∧ c'.limit ≤ c'.hardLimit ∧
      c'.hardLimit ≤ max 0 ((timed 0 300 0).remainingTime - 2 * (timed 0 300 0).lostTime - 1000)) ∧
    ∀ t, 0 ≤ t →
      ((timed 0 300 0).allocateMoreTime t).1.limit ≤ ((timed 0 300 0).allocateMoreTime t).1.hardLimit ∧
      (timed 0 300 0).limit ≤ ((timed 0 300 0).allocateMoreTime t).1.limit :=
  allocateTime_within (.timed 0 300 0)

/-! ## Conventional time control -/

/-- Each move starts the clock and stops it. -/
def playMoves (c : Clock) (times : List (Realtime × Realtime)) : Clock :=
  times.foldl (fun c t => (c.start t.1).stop t.2) c

/-- What is measured for a move. -/
def elapsed (t : Realtime × Realtime) : Int := ((t.2 - t.1) / 1000#64).toNat

/-- A move with a stopped clock. -/
theorem conv_move (hrunning : c.running = false) (hmode : c.mode = .conv)
    (hmoves : 0 < c.remainingMoves.toNat) (t : Realtime × Realtime) :
    ∃ c', (c.start t.1).stop t.2 = c' ∧ c'.running = false ∧ c'.mode = .conv ∧
      c'.baseTime = c.baseTime ∧ c'.baseMoves = c.baseMoves ∧
      if c.remainingMoves.toNat = 1 then c'.remainingMoves = c.baseMoves ∧
        c'.remainingTime = c.remainingTime - elapsed t + c.baseTime
      else c'.remainingMoves.toNat = c.remainingMoves.toNat - 1 ∧
        c'.remainingTime = c.remainingTime - elapsed t := by
  have hsub := toNat_sub_one hmoves
  have hlast : c.remainingMoves - 1 = 0 ↔ c.remainingMoves.toNat = 1 := by
    rw [← BitVec.toNat_inj, hsub]
    show c.remainingMoves.toNat - 1 = 0 ↔ _
    omega
  refine ⟨_, rfl, ?_⟩
  unfold Clock.start Clock.stop updateRemaining
  simp only [hrunning, hmode, Bool.not_true, Bool.false_eq_true, if_false, hlast]
  by_cases h1 : c.remainingMoves.toNat = 1
  · rw [if_pos h1, if_pos h1]
    exact ⟨rfl, rfl, rfl, rfl, rfl, rfl⟩
  · rw [if_neg h1, if_neg h1]
    exact ⟨rfl, rfl, rfl, rfl, hsub, rfl⟩

/-- The last move of a period, and any other. -/
theorem succ_div_mod {m : Nat} (hm : 0 < m) (k : Nat) :
    (k % m = m - 1 ∧ (k + 1) / m = k / m + 1 ∧ (k + 1) % m = 0) ∨
      (k % m < m - 1 ∧ (k + 1) / m = k / m ∧ (k + 1) % m = k % m + 1) := by
  have hk := Nat.div_add_mod k m
  have hlt := Nat.mod_lt k hm
  by_cases hlast : k % m = m - 1
  · refine .inl ⟨hlast, (Nat.div_mod_unique hm).mpr ⟨?_, hm⟩⟩
    rw [Nat.mul_add]
    omega
  · refine .inr ⟨by omega, (Nat.div_mod_unique hm).mpr ⟨?_, by omega⟩⟩
    omega

/-- **Moves and time of a conventional time control**, period after period. -/
theorem conv_accounting (m baseSecs : BitVec 32) (hm : 0 < m.toNat)
    (times : List (Realtime × Realtime)) :
    let c := (timed m baseSecs 0).playMoves times
    c.remainingMoves.toNat = m.toNat - times.length % m.toNat ∧ 0 < c.remainingMoves.toNat ∧
      c.remainingTime = (timed m baseSecs 0).baseTime * (1 + (times.length / m.toNat : Nat)) -
        (times.map elapsed).sum ∧
      ∃ c', c.allocateTime = some c' := by
  have hne : m ≠ 0 := fun h0 => by rw [h0] at hm; exact absurd hm (by decide)
  have hconv : (timed m baseSecs 0).mode = .conv := by
    unfold timed
    simp only [hne, false_and, if_false, if_true]
  have hrun : ∀ times : List (Realtime × Realtime), ∃ c, (timed m baseSecs 0).playMoves times = c ∧
      c.running = false ∧ c.mode = .conv ∧ c.baseTime = (timed m baseSecs 0).baseTime ∧
      c.baseMoves = m ∧ c.remainingMoves.toNat = m.toNat - times.length % m.toNat ∧
      c.remainingTime = (timed m baseSecs 0).baseTime * (1 + (times.length / m.toNat : Nat)) -
        (times.map elapsed).sum ∧ Ticking c := by
    intro times
    induction times using List.reverseRecOn with
    | nil =>
      refine ⟨_, rfl, rfl, hconv, rfl, rfl, ?_, ?_, .timed m baseSecs 0⟩
      · show m.toNat = m.toNat - 0 % m.toNat
        rw [Nat.zero_mod, Nat.sub_zero]
      · show (timed m baseSecs 0).baseTime = _ * (1 + ((0 / m.toNat : Nat) : Int)) - 0
        rw [Nat.zero_div]
        simp
    | append_singleton times t ih =>
      obtain ⟨c, hc, hrunning, hmode, htime, hbase, hmoves, hremaining, hticking⟩ := ih
      have hmod := Nat.mod_lt times.length hm
      obtain ⟨c', hc', hrunning', hmode', htime', hbase', hstep⟩ :=
        conv_move hrunning hmode (by omega) t
      refine ⟨c', ?_, hrunning', hmode', htime'.trans htime, hbase'.trans hbase, ?_⟩
      · unfold playMoves at hc ⊢
        rw [List.foldl_append, hc]
        exact hc'
      · have hsum : ((times ++ [t]).map elapsed).sum = (times.map elapsed).sum + elapsed t := by
          simp
        have hticking' : Ticking c' := hc' ▸ (hticking.start t.1).stop t.2
        rw [hsum, List.length_append, List.length_singleton]
        rcases succ_div_mod hm times.length with ⟨hlast, hdiv, hmod'⟩ | ⟨hlast, hdiv, hmod'⟩
        · rw [if_pos (by omega)] at hstep
          rw [hdiv, hmod', hstep.1, hstep.2, hremaining, htime, hbase]
          refine ⟨rfl, ?_, hticking'⟩
          push_cast
          ring
        · rw [if_neg (by omega)] at hstep
          rw [hdiv, hmod', hstep.1, hstep.2, hremaining, hmoves]
          exact ⟨by omega, by ring, hticking'⟩
  obtain ⟨c, hc, _, _, _, _, hmoves, htime, hticking⟩ := hrun times
  have hpos := (Nat.sub_pos_of_lt (Nat.mod_lt times.length hm))
  simp only [hc]
  exact ⟨hmoves, hmoves ▸ hpos, htime, exists_allocateTime hticking.sound⟩

/-- Two moves for eleven seconds, and three moves. -/
theorem conv_accounting_three :
    let c := (timed 2 11 0).playMoves [(0, 1000000), (0, 2000000), (0, 0)]
    c.remainingMoves.toNat = 1 ∧ 0 < c.remainingMoves.toNat ∧ c.remainingTime = 19000 ∧
      ∃ c', c.allocateTime = some c' := by
  obtain ⟨hmoves, hpos, htime, halloc⟩ :=
    conv_accounting 2 11 (by decide) [(0, 1000000), (0, 2000000), (0, 0)]
  exact ⟨hmoves.trans (by decide), hpos, htime.trans (by decide), halloc⟩

/-! ## The margin for the last overrun -/

/-- The limit drops by twice the last overrun, unless that is raised to half of what is left. -/
theorem withLimits_limit_le_iff {safe : Int} (hsafe : 0 < safe) (limitTmp : Int) :
    (c.withLimits safe limitTmp).limit ≤ max 0 (limitTmp - 2 * c.overTime) ↔
      ¬ (limitTmp - 2 * c.overTime < safe ∧ safe < 2 * (limitTmp - 2 * c.overTime)) := by
  unfold withLimits
  simp only
  split_ifs <;> simp only [le_max_iff] <;> omega

/-- **When twice the last overrun stays out of the limit**: unless the share without it is more than
half of what is left, but not all of it. -/
theorem margin_honoured_iff (h : Ticking c) (hsafe : 0 < c.remainingSafe) :
    ∃ c' share, c.allocateTime = some c' ∧ c.share c.remainingSafe = some share ∧
      (c'.limit ≤ max 0 (share - 2 * c.overTime) ↔
        ¬ (share - 2 * c.overTime < c.remainingSafe ∧
          c.remainingSafe < 2 * (share - 2 * c.overTime))) := by
  rcases allocateTime_cases h.sound with ⟨hle, _⟩ | ⟨limitTmp, _, hshare, he⟩
  · exact absurd hsafe (not_lt.mpr hle)
  · exact ⟨_, limitTmp, he, hshare, withLimits_limit_le_iff hsafe limitTmp⟩

/-- It does in sudden death, and with two moves to go. -/
theorem margin_honoured_of_share (h : Ticking c) (hsafe : 0 < c.remainingSafe)
    (hmode : c.mode = .suddendeath ∨ c.mode = .conv ∧ 2 ≤ c.remainingMoves.toNat) :
    ∃ c' share, c.allocateTime = some c' ∧ c.share c.remainingSafe = some share ∧
      c'.limit ≤ max 0 (share - 2 * c.overTime) := by
  rcases allocateTime_cases h.sound with ⟨hle, _⟩ | ⟨share, _, hshare, hc⟩
  · exact absurd hsafe (not_lt.mpr hle)
  have hiff := @withLimits_limit_le_iff c _ hsafe share
  have hover := h.sound.overrun
  have hhalf : 2 * share ≤ c.remainingSafe := by
    generalize c.remainingSafe = safe at hsafe hshare
    unfold Clock.share at hshare
    rcases hmode with hm | ⟨hm, hmoves⟩ <;> rw [hm] at hshare
    · obtain rfl := Option.some.inj hshare
      rw [Int.tdiv_eq_ediv_of_nonneg hsafe.le]
      omega
    · simp only [if_pos (show 0 < c.remainingMoves.toNat by omega)] at hshare
      obtain rfl := Option.some.inj hshare
      rw [Int.tdiv_eq_ediv_of_nonneg hsafe.le]
      have hmoves' : (2 : Int) ≤ c.remainingMoves.toNat := by exact_mod_cast hmoves
      have hnonneg : 0 ≤ safe / (c.remainingMoves.toNat : Int) :=
        Int.ediv_nonneg hsafe.le (by omega)
      calc 2 * (safe / (c.remainingMoves.toNat : Int))
          ≤ c.remainingMoves.toNat * (safe / (c.remainingMoves.toNat : Int)) :=
            mul_le_mul_of_nonneg_right hmoves' hnonneg
        _ ≤ safe := Int.mul_ediv_self_le (by omega)
  exact ⟨_, share, hc, hshare, hiff.mpr fun hbad => by omega⟩

/-- Five minutes for the game. -/
theorem margin_honoured_blitz :
    ∃ c' share, (timed 0 300 0).allocateTime = some c' ∧
      (timed 0 300 0).share (timed 0 300 0).remainingSafe = some share ∧
      (c'.limit ≤ max 0 (share - 2 * (timed 0 300 0).overTime) ↔
        ¬ (share - 2 * (timed 0 300 0).overTime < (timed 0 300 0).remainingSafe ∧
          (timed 0 300 0).remainingSafe < 2 * (share - 2 * (timed 0 300 0).overTime))) :=
  margin_honoured_iff (.timed 0 300 0) (by decide)

/-- A clock for one move each, after a move of one second. -/
def afterOverrun : Clock := ((timed 1 11 0).start 0).stop 1000000

/-- **The last move of a time control** is given all that is left, overrun and all. -/
theorem margin_lost : Ticking afterOverrun ∧ 0 < afterOverrun.remainingSafe ∧
    ∃ c' share, afterOverrun.allocateTime = some c' ∧
      afterOverrun.share afterOverrun.remainingSafe = some share ∧
      ¬ c'.limit ≤ max 0 (share - 2 * afterOverrun.overTime) := by
  refine ⟨((Ticking.timed 1 11 0).start 0).stop 1000000, by decide,
    afterOverrun.withLimits 20000 20000, 20000, by decide, by decide, by decide⟩

end HoiChess.Clock
