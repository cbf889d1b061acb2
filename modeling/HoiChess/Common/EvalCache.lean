import HoiChess.Lib.DirectMapped
import HoiChess.Chess.Exact
import HoiChess.Chess.ScoreBounds
import HoiChess.Common.PawnHash

/-!
# When the evaluation cache is transparent

The cache keeps one score for a position, as White sees it, under a key that knows neither the
side to move nor how the men got where they are.  The first does no harm, since a score only
changes its sign with the side (`toWhite_fullScore`).  The second does: `score_devel` counts moves
and looks at castling.  So all answers are those of an evaluator without a cache exactly if
whenever the last evaluation that used the same slot was of the same position, the development
of both boards counts the same in the end (`DevelopmentAgrees`).
-/

namespace HoiChess

open Chess WordSet Rules Incremental

/-! ## Boards of the same position -/

namespace Chess.Board

/-- `operator==` with the side to move aside. -/
def samePosition (b b' : Board) : Prop :=
  b.position = b'.position ∧ b.flags = b'.flags ∧ b.epsq = b'.epsq

/-- The fields that a position does not determine. -/
structure History where
  side : Color
  moveno : Int
  movecnt50 : Int
  hasCastled : PerColor Bool
  pceMovecnt : Vector (BitVec 32) 64
  hashkey : Hashkey
  pawnhashkey : Hashkey

def withHistory (b : Board) (h : History) : Board :=
  { b with
    side := h.side
    moveno := h.moveno
    movecnt50 := h.movecnt50
    hasCastled := h.hasCastled
    pceMovecnt := h.pceMovecnt
    hashkey := h.hashkey
    pawnhashkey := h.pawnhashkey }

end Chess.Board

namespace Chess

section Same

variable [k : Build] {b b' : Board} {man man' : Placement} {pos pos' : Position}

omit k in
theorem word_eq_of_image {f : Square → Square} (hf : ∀ s t, f s = f t → s = t) {x y : Bitboard}
    (h : ∀ s, mem x (f s) = mem y (f s)) : x = y := by
  refine WordSet.ext fun i => ?_
  obtain ⟨s, rfl⟩ := Finite.surjective_of_injective (fun s t => hf s t) i
  exact h s

theorem Consistent.man_eq (h : Consistent b man) (h' : Consistent b' man')
    (heq : b.position = b'.position) : man = man' := by
  have hpos : ∀ c p sq, man sq = some (c, p) ↔ man' sq = some (c, p) := by
    intro c p sq
    have e : b.pos c p = b'.pos c p := by rw [Board.pos, Board.pos, heq]
    have h1 := h.pos c p sq
    rw [e, h'.pos c p sq, decide_eq_decide] at h1
    exact h1.symm
  funext sq
  cases hm : man sq with
  | none =>
    cases hm' : man' sq with
    | none => rfl
    | some m => rw [(hpos m.1 m.2 sq).mpr hm'] at hm; cases hm
  | some m => exact ((hpos m.1 m.2 sq).mp hm).symm

/-- **A position determines all other fields that are not history.** -/
theorem Sim.same (h : Sim b pos) (hv : Valid pos) (h' : Sim b' pos') (heq : b.samePosition b') :
    ∃ hist, b' = b.withHistory hist := by
  obtain ⟨hposition, hflags, hep⟩ := heq
  have hc := h.consistent
  have hc' := h'.consistent
  have hman := hc.man_eq hc' hposition
  rw [← hman] at hc'
  have hall : b.positionAll = b'.positionAll := PerColor.ext_get fun c =>
    WordSet.ext fun sq => (hc.all c sq).trans (hc'.all c sq).symm
  have hocc : b.occupied = b'.occupied :=
    WordSet.ext fun sq => (hc.rot.occ0 sq).trans (hc'.rot.occ0 sq).symm
  have hl90 : b.occupiedL90 = b'.occupiedL90 := word_eq_of_image mapL90_injective fun s =>
    (hc.rot.occL90 s).trans (hc'.rot.occL90 s).symm
  have hl45 : b.occupiedL45 = b'.occupiedL45 := word_eq_of_image mapL45_injective fun s =>
    (hc.rot.occL45 s).trans (hc'.rot.occL45 s).symm
  have hr45 : b.occupiedR45 = b'.occupiedR45 := word_eq_of_image mapR45_injective fun s =>
    (hc.rot.occR45 s).trans (hc'.rot.occR45 s).symm
  have hking : b.king = b'.king := PerColor.ext_get fun c => by
    obtain ⟨sq, hsq⟩ := hv.king_exists c
    exact (h.king c sq hsq).trans (h'.king c sq (by rw [← hman]; exact hsq)).symm
  have hmaterial : b.material = b'.material := PerColor.ext_get fun c =>
    (hc.material c).trans (hc'.material c).symm
  refine ⟨⟨b'.side, b'.moveno, b'.movecnt50, b'.hasCastled, b'.pceMovecnt, b'.hashkey,
    b'.pawnhashkey⟩, ?_⟩
  unfold Board.withHistory
  rw [hposition, hall, hocc, hl90, hl45, hr45, hking, hmaterial, hflags, hep]

/-- The key of the cache leaves out the side to move. -/
theorem Consistent.hashkeyNoside_eq (h : Consistent b man) :
    b.hashkeyNoside = xorSum (fun sq => manKey sq (man sq)) ^^^ stateKey b := by
  unfold Board.hashkeyNoside
  rw [h.hash]
  cases b.side with
  | white => simp [sideKey]
  | black =>
    rw [if_pos rfl]
    show _ ^^^ k.hashSide ^^^ stateKey b ^^^ k.hashSide = _
    rw [BitVec.xor_assoc _ (stateKey b), BitVec.xor_comm (stateKey b), ← BitVec.xor_assoc,
      BitVec.xor_assoc _ k.hashSide k.hashSide, BitVec.xor_self, BitVec.xor_zero]

theorem hashkeyNoside_of_same (h : Consistent b man) (h' : Consistent b' man')
    (heq : b.samePosition b') : b.hashkeyNoside = b'.hashkeyNoside := by
  obtain ⟨hposition, hflags, hep⟩ := heq
  rw [h.hashkeyNoside_eq, h'.hashkeyNoside_eq, h.man_eq h' hposition]
  have hstate : stateKey b = stateKey b' := by
    unfold stateKey flagsKey flagKeyIf Board.hasFlag
    rw [hflags, hep]
  rw [hstate]

end Same

end Chess

namespace Evaluator

/-! ## Scores as White sees them -/

section White

variable [Build] (b : Board)

/-- The score for the side to move, as White sees it. -/
def toWhite (s : Int) : Int := if b.side = .white then s else -s

omit [Build] in
theorem toWhite_toWhite (s : Int) : toWhite b (toWhite b s) = s := by
  unfold toWhite
  split
  · rfl
  · exact neg_neg s

/-- The development as White sees it. -/
def development : Int := b.scoreDevel (getPhase b) .white - b.scoreDevel (getPhase b) .black

/-- The plugins of phase 1 other than the development. -/
def restScore (c : Color) : Int :=
  (pawnScore b (getPhase b)).get c +
    (b.scoreKnights c + b.scoreBishops c + b.scoreRooks (getPhase b) ((passed b (getPhase b)).get c) c +
      b.scoreQueens c + b.scoreKing (getPhase b) c + b.scoreCombo c)

/-- The score with a given development, as White sees it. -/
def whiteScore (devel : Int) : Int :=
  total (materialBalance (b.material.get .white) (b.material.get .black))
    (restScore b .white - restScore b .black + devel) (b.scoreControl .white - b.scoreControl .black)

omit [Build] in
theorem materialBalance_neg (ms mxs : Int) : materialBalance mxs ms = -materialBalance ms mxs := by
  unfold materialBalance
  rw [← Int.neg_tdiv]
  congr 1
  ring

omit [Build] in
theorem total_neg (m s c : Int) : total (-m) (-s) (-c) = -total m s c := by
  unfold total
  split <;> split <;> omega

/-- **The side to move changes the sign of the score only.** -/
theorem toWhite_fullScore : toWhite b (fullScore b) = whiteScore b (development b) := by
  have hdiff : score1 b .white - score1 b .black =
      restScore b .white - restScore b .black + development b := by
    unfold score1 restScore development Board.scorePlugins
    ring
  unfold toWhite fullScore whiteScore material phase2
  rw [← hdiff]
  cases b.side with
  | white => rfl
  | black =>
    rw [if_neg (by decide)]
    simp only [Color.xside]
    rw [materialBalance_neg (b.material.get .white), ← neg_sub (score1 b .white),
      ← neg_sub (b.scoreControl .white), total_neg, neg_neg]

/-- The development counts the same in the end: it is the same, or the control over the board, which
is only looked at when the plugins of phase 1 say little, makes up for the difference. -/
def DevelopmentAgrees (b b' : Board) : Prop :=
  let rest := restScore b .white - restScore b .black
  let control := b.scoreControl .white - b.scoreControl .black
  let s := rest + development b
  let s' := rest + development b'
  development b = development b' ∨
    (|s| ≤ evalCutoffPhase1 ∧ evalCutoffPhase1 < |s'| ∧ development b + control = development b') ∨
    (|s'| ≤ evalCutoffPhase1 ∧ evalCutoffPhase1 < |s| ∧ development b' + control = development b)

omit [Build] in
theorem total_eq_iff (m r d d' c : Int) : total m (r + d) c = total m (r + d') c ↔
    d = d' ∨ (|r + d| ≤ evalCutoffPhase1 ∧ evalCutoffPhase1 < |r + d'| ∧ d + c = d') ∨
      (|r + d'| ≤ evalCutoffPhase1 ∧ evalCutoffPhase1 < |r + d| ∧ d' + c = d) := by
  have habs : ∀ x : Int, x > evalCutoffPhase1 ∨ x < -evalCutoffPhase1 ↔ evalCutoffPhase1 < |x| := by
    intro x
    rw [lt_abs, lt_neg]
  unfold total
  simp only [habs]
  by_cases h : evalCutoffPhase1 < |r + d| <;> by_cases h' : evalCutoffPhase1 < |r + d'|
  · simp only [h, h', if_true, not_le.mpr h, not_le.mpr h', false_and, or_false]
    omega
  · simp only [h, h', if_true, if_false, not_le.mpr h, not_lt.mp h', true_and, false_and, false_or]
    constructor
    · intro e
      exact .inr (by omega)
    · rintro (rfl | e)
      · exact absurd h h'
      · omega
  · simp only [h, h', if_true, if_false, not_lt.mp h, not_le.mpr h', true_and, false_and, or_false]
    constructor
    · intro e
      exact .inr (by omega)
    · rintro (rfl | e)
      · exact absurd h' h
      · omega
  · simp only [h, h', if_false, false_and, and_false, or_false]
    omega

end White

section Same

variable [Build] {b : Board}

theorem restScore_withHistory (hist : Board.History) (c : Color) :
    restScore (b.withHistory hist) c = restScore b c := rfl

theorem whiteScore_withHistory (hist : Board.History) (d : Int) :
    whiteScore (b.withHistory hist) d = whiteScore b d := by
  unfold whiteScore
  rw [restScore_withHistory, restScore_withHistory]
  rfl

theorem whiteScore_eq_iff (hist : Board.History) :
    whiteScore b (development b) =
        whiteScore (b.withHistory hist) (development (b.withHistory hist)) ↔
      DevelopmentAgrees b (b.withHistory hist) := by
  rw [whiteScore_withHistory]
  exact total_eq_iff _ _ _ _ _

end Same

/-! ## The cache as a direct-mapped table of scores as White sees them -/

section Cache

/-- The slot of a key. -/
def slotOf (n : Nat) (key : Hashkey) : Nat := key.toNat % n

/-- What the slots hold; a slot with the score `INT_MIN` is empty. -/
def slots (c : EvaluationCache) : DirectMapped.Table Hashkey Nat Int := fun i =>
  if (c.cache i).score = CacheEntry.emptyScore then none
  else some ((c.cache i).hashkey, (c.cache i).score)

theorem slots_create (bytes : Nat) : slots (.create bytes) = fun _ => none := by
  funext i
  exact if_pos rfl

variable [Build] (c : EvaluationCache) (b : Board)

theorem probe_eq : c.probe b =
    (DirectMapped.lookup (slotOf c.cacheSize) (slots c) b.hashkeyNoside).map (toWhite b) := by
  unfold EvaluationCache.probe DirectMapped.lookup slots slotOf toWhite
  simp only
  split
  · rfl
  · simp only
    split
    · rfl
    · rename_i hk
      rw [if_pos (not_not.mp hk)]
      rfl

theorem slots_put {score : Int} (h : toWhite b score ≠ CacheEntry.emptyScore) :
    slots (c.put b score) = Function.update (slots c) (slotOf c.cacheSize b.hashkeyNoside)
      (some (b.hashkeyNoside, toWhite b score)) := by
  funext i
  have hput : (c.put b score).cache = Function.update c.cache
      (slotOf c.cacheSize b.hashkeyNoside) ⟨b.hashkeyNoside, toWhite b score⟩ := rfl
  unfold slots
  rw [hput]
  by_cases hi : i = slotOf c.cacheSize b.hashkeyNoside
  · subst hi
    rw [Function.update_self, Function.update_self, if_neg h]
  · rw [Function.update_of_ne hi, Function.update_of_ne hi]

/-- What a call uses the cache for. -/
def useOf (b : Board) : Hashkey × Int := (b.hashkeyNoside, whiteScore b (development b))

variable {e : Evaluator} {B : Board → Prop} {c : EvaluationCache} {b : Board}

/-- **A call with a cache is one use of the table.** -/
theorem eval_cached (h : Sound e B) (hb : B b) (hcache : e.evalcache = some c) {alpha beta : Int}
    (hcut : cutoff b alpha beta = false)
    (hscore : whiteScore b (development b) ≠ CacheEntry.emptyScore) :
    toWhite b (e.eval b alpha beta).1 =
        (DirectMapped.use (slotOf c.cacheSize) (slots c) (useOf b)).1 ∧
      (∃ c', (e.eval b alpha beta).2.evalcache = some c' ∧ c'.cacheSize = c.cacheSize ∧
        slots c' = (DirectMapped.use (slotOf c.cacheSize) (slots c) (useOf b)).2) ∧
      Sound (e.eval b alpha beta).2 B := by
  obtain ⟨hfull, _, hcache', hsound⟩ := h.evaluate hb
  have hprobe := probe_eq c b
  unfold Evaluator.eval DirectMapped.use
  simp only [hcut, hcache, Option.bind_some, hprobe]
  show _ ∧ _ ∧ _
  cases hl : DirectMapped.lookup (slotOf c.cacheSize) (slots c) b.hashkeyNoside with
  | some v =>
    have hl' : DirectMapped.lookup (slotOf c.cacheSize) (slots c) (useOf b).1 = some v := hl
    rw [hl']
    exact ⟨toWhite_toWhite b v, ⟨c, hcache, rfl, rfl⟩, h⟩
  | none =>
    have hl' : DirectMapped.lookup (slotOf c.cacheSize) (slots c) (useOf b).1 = none := hl
    rw [hl']
    have hwhite : toWhite b (e.evaluate b).1 = whiteScore b (development b) := by
      rw [hfull, toWhite_fullScore]
    refine ⟨hwhite, ⟨c.put b (e.evaluate b).1, ?_, rfl, ?_⟩, hsound⟩
    · show (e.evaluate b).2.evalcache.map _ = _
      rw [hcache', hcache]
      rfl
    · rw [slots_put c b (by rw [hwhite]; exact hscore), hwhite]
      rfl

/-! ## Sequences of calls -/

/-- The score of a call from scratch. -/
def pureScore (c : Call) : Int :=
  if cutoff c.board c.alpha c.beta then material c.board else fullScore c.board

/-- The calls that get past the material. -/
def evaluated (calls : List Call) : List Call :=
  calls.filter (fun c => !cutoff c.board c.alpha c.beta)

theorem run_uncached {calls : List Call} (h : Sound e B) (hcache : e.evalcache = none)
    (hB : ∀ c ∈ calls, B c.board) : (e.run calls).map Prod.fst = calls.map pureScore := by
  induction calls generalizing e with
  | nil => rfl
  | cons c calls ih =>
    obtain ⟨h1, _, h3, h4⟩ := h.eval (hB c List.mem_cons_self) hcache c.alpha c.beta
    rw [run, List.map_cons, List.map_cons, h1, ih h4 h3 fun d hd => hB d (List.mem_cons_of_mem c hd)]
    rfl

theorem run_cached {calls : List Call} (h : Sound e B) (hcache : e.evalcache = some c)
    (hB : ∀ c ∈ calls, B c.board)
    (hscore : ∀ b, B b → whiteScore b (development b) ≠ CacheEntry.emptyScore) :
    (e.run calls).map Prod.fst = calls.map pureScore ↔
      DirectMapped.answers (slotOf c.cacheSize) (slots c)
          ((evaluated calls).map fun c => useOf c.board) =
        ((evaluated calls).map fun c => useOf c.board).map Prod.snd := by
  induction calls generalizing e c with
  | nil => exact iff_of_true rfl rfl
  | cons d calls ih =>
    have hd := hB d List.mem_cons_self
    have hrest : ∀ d' ∈ calls, B d'.board := fun d' hd' => hB d' (List.mem_cons_of_mem d hd')
    rw [run, List.map_cons, List.map_cons, List.cons.injEq]
    by_cases hcut : cutoff d.board d.alpha d.beta = true
    · have hev : evaluated (d :: calls) = evaluated calls := by
        unfold evaluated
        rw [List.filter_cons, hcut]
        rfl
      have heval : e.eval d.board d.alpha d.beta = (material d.board, e) := by
        unfold Evaluator.eval
        rw [if_pos hcut]
      have hpure : pureScore d = material d.board := if_pos hcut
      rw [hev, heval, hpure]
      exact (and_iff_right rfl).trans (ih h hcache hrest)
    · rw [Bool.not_eq_true] at hcut
      have hev : evaluated (d :: calls) = d :: evaluated calls := by
        unfold evaluated
        rw [List.filter_cons, hcut]
        rfl
      have hpure : pureScore d = fullScore d.board := if_neg (by rw [hcut]; decide)
      obtain ⟨h1, ⟨c', h2, hsize, hslots⟩, h3⟩ := eval_cached h hd hcache hcut (hscore _ hd)
      have hhead : (e.eval d.board d.alpha d.beta).1 = fullScore d.board ↔
          (DirectMapped.use (slotOf c.cacheSize) (slots c) (useOf d.board)).1 = (useOf d.board).2 := by
        rw [← h1, useOf, ← toWhite_fullScore]
        constructor
        · exact fun e => congrArg (toWhite d.board) e
        · intro e
          rw [← toWhite_toWhite d.board (Evaluator.eval _ _ _ _).1, e, toWhite_toWhite]
      rw [hev, hpure, ih h3 h2 hrest, hsize, hslots, List.map_cons, List.map_cons,
        DirectMapped.answers, List.cons.injEq, hhead]

/-- Boards of different positions, whoever is to move, have different keys. -/
def KeysTell (calls : List Call) : Prop :=
  ∀ c ∈ calls, ∀ c' ∈ calls, c.board.hashkeyNoside = c'.board.hashkeyNoside →
    c.board.samePosition c'.board

/-- The last of some calls whose board used the same slot. -/
def lastInSlot (n : Nat) (calls : List Call) (b : Board) : Option Call :=
  calls.reverse.find? fun c => slotOf n c.board.hashkeyNoside = slotOf n b.hashkeyNoside

/-- Whenever the last evaluation in a slot was of the same position, its development agrees. -/
def CacheSafe (n : Nat) (calls : List Call) : Prop :=
  ∀ pre c post, evaluated calls = pre ++ c :: post → ∀ c', lastInSlot n pre c.board = some c' →
    c'.board.samePosition c.board → DevelopmentAgrees c'.board c.board

theorem mem_of_lastInSlot {n : Nat} {calls pre post : List Call} {c c' : Call} {b : Board}
    (heq : evaluated calls = pre ++ c :: post) (hlast : lastInSlot n pre b = some c') :
    c' ∈ calls ∧ c ∈ calls := by
  have hpre : c' ∈ pre := List.mem_reverse.mp (List.mem_of_find?_eq_some hlast)
  have hmem : ∀ d ∈ pre ++ c :: post, d ∈ calls := by
    rw [← heq]
    exact fun d hd => (List.mem_filter.mp hd).1
  exact ⟨hmem c' (List.mem_append_left _ hpre), hmem c (by simp)⟩

theorem lastUse_map (n : Nat) (calls : List Call) (b : Board) :
    DirectMapped.lastUse (slotOf n) (calls.map fun c => useOf c.board) (slotOf n (useOf b).1) =
      (lastInSlot n calls b).map fun c => useOf c.board := by
  unfold DirectMapped.lastUse lastInSlot
  rw [← List.map_reverse, List.find?_map]
  rfl

/-- An evaluator with tables of the given sizes; none if the size is 0. -/
def fresh (pawnhash evalcache : Nat) : Evaluator :=
  (create.setPawnhashSize pawnhash).setEvalcacheSize evalcache

theorem sound_fresh {pawnhash : Nat} (hkeys : 0 < pawnhash → PawnKeysTell B) (evalcache : Nat) :
    Sound (fresh pawnhash evalcache) B := by
  intro t ht
  have ht' : (if pawnhash > 0 then some (PawnHashTable.create pawnhash) else none) = some t := ht
  split at ht'
  · rename_i hp
    obtain rfl := Option.some.inj ht'
    exact ⟨hkeys hp, known_create pawnhash⟩
  · cases ht'

end Cache

/-! ## Boards of games -/

section Games

variable [Build] {b b' : Board}

theorem material_bounds {man : Placement} (h : Consistent b man) (c : Color) :
    0 ≤ b.material.get c ∧ b.material.get c ≤ 72000 := by
  have hone : ∀ m : Option Man, 0 ≤ manValue c m ∧ manValue c m ≤ 900 := by
    intro m
    cases m with
    | none => exact ⟨le_refl 0, (by decide : (0 : Int) ≤ 900)⟩
    | some m =>
      obtain ⟨d, p⟩ := m
      simp only [manValue]
      split
      · cases p <;> decide
      · decide
  rw [h.material]
  constructor
  · exact Finset.sum_nonneg fun sq _ => (hone _).1
  · refine (Finset.sum_le_card_nsmul _ _ 900 fun sq _ => (hone _).2).trans ?_
    rw [Finset.card_univ, Fintype.card_fin]
    decide

/-- No score is taken for an empty slot. -/
theorem whiteScore_ne {man : Placement} (h : Consistent b man) :
    whiteScore b (development b) ≠ CacheEntry.emptyScore := by
  have hmat := Board.abs_materialBalance_le (material_bounds h .white) (material_bounds h .black)
  have hs : ∀ c, |score1 b c| ≤ 612000 := by
    intro c
    refine (abs_add_le _ _).trans (add_le_add (b := (12000 : Int)) ?_ (b.abs_scorePlugins_le c _ _))
    rw [pawnScore_get]
    exact b.abs_scorePawnsLoop_le _ _
  have hdiff : score1 b .white - score1 b .black =
      restScore b .white - restScore b .black + development b := by
    unfold score1 restScore development Board.scorePlugins
    ring
  have h1 := hs .white
  have h2 := hs .black
  have h3 := b.abs_scoreControl_le .white
  have h4 := b.abs_scoreControl_le .black
  have hempty : CacheEntry.emptyScore = -2147483648 := rfl
  unfold whiteScore total
  rw [← hdiff, hempty]
  rw [abs_le] at hmat h1 h2 h3 h4
  split <;> omega

theorem useOf_fst (b : Board) : (useOf b).1 = b.hashkeyNoside := rfl

/-- On boards of games, the same key is the same position, and then the scores agree as the
development does. -/
theorem useOf_iff (h : Reached b) (h' : Reached b')
    (hkeys : b.hashkeyNoside = b'.hashkeyNoside → b.samePosition b') :
    (useOf b).1 = (useOf b').1 ∧ (useOf b).2 = (useOf b').2 ↔
      b.samePosition b' ∧ DevelopmentAgrees b b' := by
  have hsim := h.sim_abs.1
  have hsim' := h'.sim_abs.1
  constructor
  · rintro ⟨hkey, hscore⟩
    have hsame := hkeys hkey
    obtain ⟨hist, rfl⟩ := hsim.same h.sim_abs.2.sane.toValid hsim' hsame
    exact ⟨hsame, (whiteScore_eq_iff hist).mp hscore⟩
  · rintro ⟨hsame, hagree⟩
    have hkey := hashkeyNoside_of_same hsim.consistent hsim'.consistent hsame
    obtain ⟨hist, rfl⟩ := hsim.same h.sim_abs.2.sane.toValid hsim' hsame
    exact ⟨hkey, (whiteScore_eq_iff hist).mpr hagree⟩

attribute [local irreducible] useOf

/-- **The evaluation cache is transparent** exactly if the boards of a position that meet in a slot
agree on the development. -/
theorem evalcache_transparent_iff {calls : List Call} (hreached : ∀ c ∈ calls, Reached c.board)
    (hkeys : KeysTell calls) {pawnhash : Nat}
    (hpawn : 0 < pawnhash → PawnKeysTell fun b => ∃ c ∈ calls, c.board = b) {bytes : Nat}
    (hbytes : 0 < bytes) :
    ((fresh pawnhash bytes).run calls).map Prod.fst = ((fresh pawnhash 0).run calls).map Prod.fst ↔
      CacheSafe (EvaluationCache.slotsOf bytes) calls := by
  have hB : ∀ c ∈ calls, ∃ c' ∈ calls, c'.board = c.board := fun c hc => ⟨c, hc, rfl⟩
  have hcache : (fresh pawnhash bytes).evalcache = some (.create bytes) := if_pos hbytes
  have hscore : ∀ b, (∃ c ∈ calls, c.board = b) →
      whiteScore b (development b) ≠ CacheEntry.emptyScore := by
    rintro b ⟨c, hc, rfl⟩
    exact whiteScore_ne (hreached c hc).sim_abs.1.consistent
  rw [run_uncached (sound_fresh hpawn 0) rfl hB, run_cached (sound_fresh hpawn bytes) hcache hB hscore,
    slots_create, DirectMapped.answers_eq_iff]
  show DirectMapped.Settled (slotOf (EvaluationCache.slotsOf bytes)) _ ↔ _
  constructor
  · intro hsettled pre c post heq c' hlast hsame
    obtain ⟨hc', hc⟩ := mem_of_lastInSlot heq hlast
    have hkey := hashkeyNoside_of_same (hreached c' hc').sim_abs.1.consistent
      (hreached c hc).sim_abs.1.consistent hsame
    rw [← useOf_fst, ← useOf_fst] at hkey
    have huse := hsettled (pre.map fun c => useOf c.board) (useOf c.board)
      (post.map fun c => useOf c.board) (by rw [heq]; simp) (useOf c'.board).2 (by
        rw [lastUse_map, hlast, ← hkey]
        rfl)
    exact ((useOf_iff (hreached c' hc') (hreached c hc) fun _ => hsame).mp ⟨hkey, huse⟩).2
  · intro hsafe pre a post heq v hlast
    obtain ⟨pre, rest, heq', rfl, hrest⟩ := List.map_eq_append_iff.mp heq
    obtain ⟨c, post, rfl, rfl, rfl⟩ := List.map_eq_cons_iff.mp hrest
    have hlast' : (lastInSlot _ pre c.board).map (fun c => useOf c.board) =
        some ((useOf c.board).1, v) := (lastUse_map _ pre c.board).symm.trans hlast
    obtain ⟨c', hc', hval⟩ := Option.map_eq_some_iff.mp hlast'
    have hkey : (useOf c'.board).1 = (useOf c.board).1 := by rw [hval]
    have hv : (useOf c'.board).2 = v := by rw [hval]
    obtain ⟨hmem', hmem⟩ := mem_of_lastInSlot heq' hc'
    have hsame := hkeys c' hmem' c hmem (by rw [← useOf_fst, ← useOf_fst, hkey])
    rw [← hv]
    exact ((useOf_iff (hreached c' hmem') (hreached c hmem) fun _ => hsame).mpr
      ⟨hsame, hsafe pre c post heq' c' hc' hsame⟩).2

end Games

/-- The same score twice for the opening board. -/
theorem evalcache_opening : ∃ b, @Board.parseFen sampleBuild openingFen = .accepted b ∧
    (@run sampleBuild (fresh 4000 16) [⟨b, -100, 100⟩, ⟨b, -50, 50⟩]).map Prod.fst =
      (@run sampleBuild (fresh 4000 0) [⟨b, -100, 100⟩, ⟨b, -50, 50⟩]).map Prod.fst := by
  let _ := sampleBuild
  obtain ⟨b, hb, _⟩ := parseFen_opening
  have hboard : ∀ c ∈ ([⟨b, -100, 100⟩, ⟨b, -50, 50⟩] : List Call), c.board = b := by
    intro c hc
    rcases List.mem_pair.mp hc with rfl | rfl <;> rfl
  have hall : ∀ b', (∃ c ∈ ([⟨b, -100, 100⟩, ⟨b, -50, 50⟩] : List Call), c.board = b') → b' = b := by
    rintro b' ⟨c, hc, rfl⟩
    exact hboard c hc
  refine ⟨b, hb, (evalcache_transparent_iff (fun c hc => ?_) (fun c hc c' hc' _ => ?_)
    (fun _ b1 b2 h1 h2 _ c => ?_) (by decide)).mpr ?_⟩
  · rw [hboard c hc]
    exact .opening hb
  · rw [hboard c hc, hboard c' hc']
    exact ⟨rfl, rfl, rfl⟩
  · rw [hall b1 h1, hall b2 h2]
  · intro pre c post heq c' hlast _
    obtain ⟨hc', hc⟩ := mem_of_lastInSlot heq hlast
    rw [hboard c hc, hboard c' hc']
    exact .inl rfl

/-! ## Where the development is forgotten -/

/-- White moves the king's knight out and back twice, Black both knights once. -/
def knightsOutAndBack : List Ply := [
  .move 6 21 .knight none, .move 62 45 .knight none, .move 21 6 .knight none,
  .move 45 62 .knight none, .move 6 21 .knight none, .move 57 42 .knight none,
  .move 21 6 .knight none, .move 42 57 .knight none]

theorem line_knightsOutAndBack : Line Rules.opening knightsOutAndBack := by decide +kernel

/-- **The opening position again**, and the cache still has the score of the board on which no man
has moved. -/
theorem evalcache_forgets_development : ∃ b b', @Reached sampleBuild b ∧ @Reached sampleBuild b' ∧
    @KeysTell sampleBuild [⟨b, -100, 100⟩, ⟨b', -100, 100⟩] ∧
    (@run sampleBuild (fresh 0 16) [⟨b, -100, 100⟩, ⟨b', -100, 100⟩]).map Prod.fst = [0, 0] ∧
    (@run sampleBuild (fresh 0 0) [⟨b, -100, 100⟩, ⟨b', -100, 100⟩]).map Prod.fst = [0, -15] := by
  let _ := sampleBuild
  have hrun : (Board.parseFen openingFen).holds (fun b =>
      let b' := knightsOutAndBack.foldl (fun b ply => b.makeMove ply.encode) b
      decide (b.position = b'.position ∧ b.flags = b'.flags ∧ b.epsq = b'.epsq) &&
        decide ((run (fresh 0 16) [⟨b, -100, 100⟩, ⟨b', -100, 100⟩]).map Prod.fst = [0, 0]) &&
        decide ((run (fresh 0 0) [⟨b, -100, 100⟩, ⟨b', -100, 100⟩]).map Prod.fst = [0, -15])) =
      true := by
    decide +kernel
  obtain ⟨b, hb, hscores⟩ := FenResult.holds_eq_true.mp hrun
  obtain ⟨b1, hb1, hsim⟩ := parseFen_opening
  obtain rfl : b1 = b := FenResult.accepted.inj (hb1.symm.trans hb)
  rw [Bool.and_eq_true, Bool.and_eq_true, decide_eq_true_eq, decide_eq_true_eq,
    decide_eq_true_eq] at hscores
  obtain ⟨⟨hsame, hcached⟩, huncached⟩ := hscores
  refine ⟨b1, _, .opening hb, Reached.playAll (.opening hb) hsim .opening line_knightsOutAndBack,
    fun c hc c' hc' _ => ?_, hcached, huncached⟩
  obtain ⟨h1, h2, h3⟩ := hsame
  rcases List.mem_pair.mp hc with rfl | rfl <;> rcases List.mem_pair.mp hc' with rfl | rfl
  · exact ⟨rfl, rfl, rfl⟩
  · exact ⟨h1, h2, h3⟩
  · exact ⟨h1.symm, h2.symm, h3.symm⟩
  · exact ⟨rfl, rfl, rfl⟩

end Evaluator

end HoiChess
