import HoiChess.Chess.Reached
import HoiChess.Common.Evaluator

/-!
# The pawn hash table is transparent

An entry of the table is `Known` if it holds what the pawn loops compute for some board with its
key, in its own phase.  `setup` then finds an entry that is either not of the current phase, so
that the loops are run, or right for the board (`Right`); either way the pawns are scored as
without a table and the passed pawns are those of the board (`phase1_eq`), and what `finish`
writes back is known again.
-/

namespace HoiChess

open Chess WordSet

namespace Evaluator

/-- Both entries of an array are set. -/
theorem set_both {α : Type} (a v : PerColor α) (c : Color) :
    (a.set c (v.get c)).set c.xside (v.get c.xside) = v := by
  cases c <;> rfl

section Pure

variable [Build] (b : Board)

/-- What the pawn loops compute for both sides. -/
def pawnScore (phase : Phase) : PerColor Int :=
  ⟨(b.scorePawnsLoop phase .white).1, (b.scorePawnsLoop phase .black).1⟩

def passed (phase : Phase) : PerColor Bitboard :=
  ⟨(b.scorePawnsLoop phase .white).2, (b.scorePawnsLoop phase .black).2⟩

theorem pawnScore_get (phase : Phase) (c : Color) :
    (pawnScore b phase).get c = (b.scorePawnsLoop phase c).1 := by
  cases c <;> rfl

theorem passed_get (phase : Phase) (c : Color) :
    (passed b phase).get c = (b.scorePawnsLoop phase c).2 := by
  cases c <;> rfl

/-- The plugins of phase 1 for one side, from scratch. -/
def score1 (c : Color) : Int :=
  (pawnScore b (getPhase b)).get c + b.scorePlugins (getPhase b) ((passed b (getPhase b)).get c) c

/-- The score of the plugins, from scratch. -/
def fullScore : Int :=
  total (material b) (score1 b b.side - score1 b b.side.xside) (phase2 b)

end Pure

/-! ## Entries that are right -/

section Entries

variable [Build]

/-- If the entry is used in this phase, it says what the loops compute. -/
def Right (entry : PawnHashEntry) (b : Board) (phase : Phase) : Prop :=
  entry.phase = some phase → entry.score = pawnScore b phase ∧ entry.passed = passed b phase

/-- The entries that `scorePawns` for one side leaves behind. -/
def scoredEntry (entry : PawnHashEntry) (b : Board) (phase : Phase) (c : Color) : PawnHashEntry :=
  { entry with
    score := entry.score.set c ((pawnScore b phase).get c)
    passed := entry.passed.set c ((passed b phase).get c) }

variable {e : Evaluator} {b : Board} {phase : Phase}

theorem scoredEntry_of_phase {entry : PawnHashEntry} (h : Right entry b phase)
    (hp : entry.phase = some phase) (c : Color) : scoredEntry entry b phase c = entry := by
  obtain ⟨h1, h2⟩ := h hp
  unfold scoredEntry
  rw [← h1, ← h2, PerColor.set_get, PerColor.set_get]

theorem Right.scoredEntry {entry : PawnHashEntry} (h : Right entry b phase) (c : Color) :
    Right (scoredEntry entry b phase c) b phase := by
  intro hp
  have hp' : entry.phase = some phase := hp
  rw [scoredEntry_of_phase h hp']
  exact h hp'

/-- **With or without a hit**, the pawns get the score and the passed pawns of the loop. -/
theorem scorePawns_eq (h : Right e.pawnhashentry b phase) (c : Color) :
    e.scorePawns b phase c = ((pawnScore b phase).get c,
      { e with
        passedPawns := e.passedPawns.set c ((passed b phase).get c)
        pawnhashentry := scoredEntry e.pawnhashentry b phase c }) := by
  unfold scorePawns
  by_cases hp : e.pawnhashentry.phase = some phase
  · rw [if_pos hp, scoredEntry_of_phase h hp, (h hp).1, (h hp).2]
  · rw [if_neg hp]
    unfold Evaluator.scoredEntry
    rw [pawnScore_get, passed_get]

/-- The entry after both sides have been scored. -/
def fullEntry (entry : PawnHashEntry) (b : Board) (phase : Phase) : PawnHashEntry :=
  { entry with score := pawnScore b phase, passed := passed b phase }

theorem phase1_eq (h : Right e.pawnhashentry b phase) :
    e.phase1 b phase =
      ((pawnScore b phase).get b.side - (pawnScore b phase).get b.side.xside +
        (b.scorePlugins phase ((passed b phase).get b.side) b.side -
          b.scorePlugins phase ((passed b phase).get b.side.xside) b.side.xside),
        { e with
          passedPawns := passed b phase
          pawnhashentry := fullEntry e.pawnhashentry b phase }) := by
  have hpassed := set_both e.passedPawns (passed b phase) b.side
  have hentry : scoredEntry (scoredEntry e.pawnhashentry b phase b.side) b phase b.side.xside =
      fullEntry e.pawnhashentry b phase := by
    unfold scoredEntry fullEntry
    simp only [set_both]
  unfold phase1
  simp only
  rw [scorePawns_eq h]
  simp only
  rw [scorePawns_eq (h.scoredEntry b.side)]
  simp only [hpassed, hentry]

/-! ## Tables whose entries are known -/

/-- Boards of different pawn placement have different pawn hash keys. -/
def PawnKeysTell (B : Board → Prop) : Prop :=
  ∀ b b', B b → B b' → b.pawnhashkey = b'.pawnhashkey → ∀ c, b.pos c .pawn = b'.pos c .pawn

/-- Every entry is that of one of the boards. -/
def Known (t : PawnHashTable) (B : Board → Prop) : Prop :=
  ∀ slot phase, (t.table slot).phase = some phase → ∃ b, B b ∧ (t.table slot).hashkey = b.pawnhashkey ∧
    (t.table slot).score = pawnScore b phase ∧ (t.table slot).passed = passed b phase

/-- The evaluator has no pawn hash table, or one that can be relied on. -/
def Sound (e : Evaluator) (B : Board → Prop) : Prop :=
  ∀ t, e.pawnhashtable = some t → PawnKeysTell B ∧ Known t B

variable {B : Board → Prop}

theorem scorePawnsLoop_congr {b b' : Board} (h : ∀ c, b.pos c .pawn = b'.pos c .pawn) (phase : Phase)
    (c : Color) : b.scorePawnsLoop phase c = b'.scorePawnsLoop phase c := by
  unfold Board.scorePawnsLoop
  rw [h c]
  congr 1
  funext st sq
  unfold Board.scorePawnsStep
  rw [h c, h c.xside]

theorem known_create (bytes : Nat) : Known (.create bytes) B := by
  intro slot phase h
  cases h

theorem Known.put {t : PawnHashTable} (h : Known t B) (hb : B b) {entry : PawnHashEntry}
    (hphase : entry.phase = some phase) (hkey : entry.hashkey = b.pawnhashkey)
    (hscore : entry.score = pawnScore b phase) (hpassed : entry.passed = passed b phase) :
    Known (t.put entry) B := by
  intro slot phase' hp
  have hp' : (Function.update t.table (entry.hashkey.toNat % t.tableSize) entry slot).phase =
      some phase' := hp
  show ∃ b, B b ∧ (Function.update t.table (entry.hashkey.toNat % t.tableSize) entry slot).hashkey = _ ∧ _
  by_cases hs : slot = entry.hashkey.toNat % t.tableSize
  · subst hs
    rw [Function.update_self] at hp'
    obtain rfl : phase = phase' := Option.some.inj (hphase.symm.trans hp')
    refine ⟨b, hb, ?_⟩
    show _ ∧ (Function.update t.table _ entry _).score = _ ∧ _
    rw [Function.update_self]
    exact ⟨hkey, hscore, (congrArg PawnHashEntry.passed (Function.update_self _ _ _)).trans hpassed⟩
  · rw [Function.update_of_ne hs] at hp'
    obtain ⟨b', hb', h1, h2, h3⟩ := h slot phase' hp'
    have hne : (t.put entry).table slot = t.table slot := Function.update_of_ne hs _ _
    rw [hne]
    exact ⟨b', hb', (congrArg PawnHashEntry.hashkey hne).trans h1, h2, h3⟩

/-- **What `setup` finds is right for the board.** -/
theorem Sound.setup (h : Sound e B) (hb : B b) : Right (e.setup b).pawnhashentry b phase := by
  unfold Evaluator.setup
  cases ht : e.pawnhashtable with
  | none => exact fun hp => by cases hp
  | some t =>
    obtain ⟨hkeys, hknown⟩ := h t ht
    intro hp
    have hp' : (t.probe b.pawnhashkey e.pawnhashentry).phase = some phase := hp
    show (t.probe b.pawnhashkey e.pawnhashentry).score = _ ∧
      (t.probe b.pawnhashkey e.pawnhashentry).passed = _
    unfold PawnHashTable.probe at hp' ⊢
    simp only at hp' ⊢
    split at hp'
    · cases hp'
    · rename_i hhit
      rw [not_or, not_not] at hhit
      obtain ⟨b', hb', hkey, hscore, hpassed⟩ := hknown _ phase hp'
      have hpawns := hkeys b b' hb hb' (hhit.2.symm.trans hkey)
      rw [if_neg (not_or.mpr ⟨hhit.1, not_not.mpr hhit.2⟩), hscore, hpassed]
      unfold pawnScore passed
      simp only [scorePawnsLoop_congr hpawns, and_self]

/-- **One evaluation** gives the score and the passed pawns from scratch, and leaves a table that
can be relied on. -/
theorem Sound.evaluate (h : Sound e B) (hb : B b) :
    (e.evaluate b).1 = fullScore b ∧ (e.evaluate b).2.passedPawns = passed b (getPhase b) ∧
      (e.evaluate b).2.evalcache = e.evalcache ∧ Sound (e.evaluate b).2 B := by
  have hsetup : (e.setup b).pawnhashtable = e.pawnhashtable ∧ (e.setup b).evalcache = e.evalcache := by
    unfold Evaluator.setup
    split <;> exact ⟨rfl, rfl⟩
  have heq : e.evaluate b = (fullScore b, ({ e.setup b with
      passedPawns := passed b (getPhase b)
      pawnhashentry := fullEntry (e.setup b).pawnhashentry b (getPhase b) } : Evaluator).finish b
        (getPhase b)) := by
    unfold Evaluator.evaluate
    simp only
    rw [phase1_eq (h.setup hb)]
    refine Prod.ext ?_ rfl
    unfold fullScore score1
    refine congrArg (fun s => total (material b) s (phase2 b)) ?_
    ring
  have hfinish : ∀ e' : Evaluator, (e'.finish b (getPhase b)).passedPawns = e'.passedPawns ∧
      (e'.finish b (getPhase b)).evalcache = e'.evalcache := by
    intro e'
    unfold finish
    split <;> exact ⟨rfl, rfl⟩
  rw [heq]
  refine ⟨rfl, (hfinish _).1, (hfinish _).2.trans hsetup.2, fun t' ht' => ?_⟩
  unfold finish at ht'
  simp only [hsetup.1] at ht'
  cases ht : e.pawnhashtable with
  | none => simp [ht] at ht'
  | some t =>
    obtain ⟨hkeys, hknown⟩ := h t ht
    simp only [ht] at ht'
    obtain rfl := Option.some.inj ht'
    exact ⟨hkeys, hknown.put hb rfl rfl rfl rfl⟩

/-- **One call without an evaluation cache.** -/
theorem Sound.eval (h : Sound e B) (hb : B b) (hcache : e.evalcache = none) (alpha beta : Int) :
    (e.eval b alpha beta).1 = (if cutoff b alpha beta then material b else fullScore b) ∧
      (e.eval b alpha beta).2.passedPawns =
        (if cutoff b alpha beta then e.passedPawns else passed b (getPhase b)) ∧
      (e.eval b alpha beta).2.evalcache = none ∧ Sound (e.eval b alpha beta).2 B := by
  obtain ⟨hscore, hpassed, hcache', hsound⟩ := h.evaluate hb
  unfold Evaluator.eval
  by_cases hc : cutoff b alpha beta = true
  · simp only [hc, if_true]
    exact ⟨trivial, trivial, hcache, h⟩
  · simp only [hc, hcache, Option.bind_none]
    refine ⟨hscore, hpassed, ?_, hsound⟩
    show (e.evaluate b).2.evalcache.map _ = none
    rw [hcache', hcache]
    rfl

/-- What a call shows: its score and the passed pawns that the plugins were given. -/
def shown (r : Int × Evaluator) : Int × PerColor Bitboard := (r.1, r.2.passedPawns)

/-- Evaluators that can be relied on and have seen the same passed pawns show the same. -/
theorem run_shown {e e' : Evaluator} {calls : List Call} (h : Sound e B) (h' : Sound e' B)
    (hcache : e.evalcache = none) (hcache' : e'.evalcache = none)
    (hpassed : e.passedPawns = e'.passedPawns) (hB : ∀ c ∈ calls, B c.board) :
    (e.run calls).map shown = (e'.run calls).map shown := by
  induction calls generalizing e e' with
  | nil => rfl
  | cons c calls ih =>
    obtain ⟨h1, h2, h3, h4⟩ := h.eval (hB c List.mem_cons_self) hcache c.alpha c.beta
    obtain ⟨h1', h2', h3', h4'⟩ := h'.eval (hB c List.mem_cons_self) hcache' c.alpha c.beta
    have hp : (e.eval c.board c.alpha c.beta).2.passedPawns =
        (e'.eval c.board c.alpha c.beta).2.passedPawns := by rw [h2, h2', hpassed]
    have hrest := ih h4 h4' h3 h3' hp fun d hd => hB d (List.mem_cons_of_mem c hd)
    rw [run, run, List.map_cons, List.map_cons, hrest]
    refine congrArg (fun s => s :: _) ?_
    unfold shown
    rw [h1, h1', hp]

/-- **The pawn hash table is transparent**, whatever its size and whatever is evaluated. -/
theorem run_pawnhash_transparent (e : Evaluator) (hcache : e.evalcache = none) {calls : List Call}
    (hkeys : PawnKeysTell fun b => ∃ c ∈ calls, c.board = b) (bytes : Nat) :
    ((e.setPawnhashSize bytes).run calls).map shown = ((e.setPawnhashSize 0).run calls).map shown := by
  have hsound : ∀ n, Sound (e.setPawnhashSize n) fun b => ∃ c ∈ calls, c.board = b := by
    intro n t ht
    unfold setPawnhashSize at ht
    simp only at ht
    split at ht
    · obtain rfl := Option.some.inj ht
      exact ⟨hkeys, known_create n⟩
    · cases ht
  exact run_shown (hsound bytes) (hsound 0) hcache hcache rfl fun c hc => ⟨c, hc, rfl⟩

end Entries

/-- The opening position evaluated twice, the second time with an entry in the table. -/
theorem run_pawnhash_opening : ∃ b, @Board.parseFen sampleBuild openingFen = .accepted b ∧
    (@run sampleBuild (create.setPawnhashSize 4000) [⟨b, -100, 100⟩, ⟨b, -50, 50⟩]).map shown =
      (@run sampleBuild (create.setPawnhashSize 0) [⟨b, -100, 100⟩, ⟨b, -50, 50⟩]).map shown := by
  let _ := sampleBuild
  obtain ⟨b, hb, _⟩ := parseFen_opening
  refine ⟨b, hb, run_pawnhash_transparent create rfl (fun b1 b2 h1 h2 _ c => ?_) 4000⟩
  have hone : ∀ b', (∃ c ∈ ([⟨b, -100, 100⟩, ⟨b, -50, 50⟩] : List Call), c.board = b') → b = b' := by
    rintro b' ⟨c, hc, rfl⟩
    rcases List.mem_cons.mp hc with rfl | hc
    · rfl
    · rw [List.mem_singleton.mp hc]
  rw [← hone b1 h1, ← hone b2 h2]

end Evaluator

end HoiChess
