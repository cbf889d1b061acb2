import HoiChess.Chess.Score

/-!
# The evaluator

`Evaluator::eval` of the chess program with its two tables.  Positions whose material alone is
far outside the window are not looked at; the others are answered from the evaluation cache or
scored by the plugins.  The score of the pawns, with the passed pawns, is taken from the pawn hash
table if the entry that was found there is of the current phase.  Statistics and `myside`, which
no plugin reads, are left out.
-/

namespace HoiChess

open Chess WordSet

/-! ## The evaluation cache -/

namespace Chess.Board

variable [k : Build] (b : Board)

def hashkeyNoside : Hashkey :=
  if b.side = .black then b.hashkey ^^^ k.hashSide else b.hashkey

end Chess.Board

/-- `struct cacheentry` -/
structure CacheEntry where
  hashkey : Hashkey
  score : Int

namespace CacheEntry

/-- The score `INT_MIN` of an empty slot. -/
abbrev emptyScore : Int := -2147483648

/-- `sizeof(struct cacheentry)` -/
abbrev bytes : Nat := 16

end CacheEntry

structure EvaluationCache where
  cacheSize : Nat
  cache : Nat → CacheEntry

namespace EvaluationCache

/-- The number of slots of a cache of so many bytes. -/
def slotsOf (bytes : Nat) : Nat :=
  if bytes / CacheEntry.bytes = 0 then 1 else bytes / CacheEntry.bytes

/-- A new cache; only the scores of the slots are set. -/
def create (bytes : Nat) : EvaluationCache where
  cacheSize := slotsOf bytes
  cache _ := ⟨0#64, CacheEntry.emptyScore⟩

variable [Build] (c : EvaluationCache) (b : Board)

def put (score : Int) : EvaluationCache :=
  { c with
    cache := Function.update c.cache (b.hashkeyNoside.toNat % c.cacheSize)
      ⟨b.hashkeyNoside, if b.side = .white then score else -score⟩ }

def probe : Option Int :=
  let e := c.cache (b.hashkeyNoside.toNat % c.cacheSize)
  if e.score = CacheEntry.emptyScore then none
  else if e.hashkey ≠ b.hashkeyNoside then none
  else some (if b.side = .white then e.score else -e.score)

end EvaluationCache

/-! ## The pawn hash table -/

/-- An entry of the pawn hash table; the phase of an invalid one is none. -/
structure PawnHashEntry where
  hashkey : Hashkey
  phase : Option Phase
  score : PerColor Int
  passed : PerColor Bitboard

namespace PawnHashEntry

/-- A new entry, of which only the phase is set. -/
def invalid : PawnHashEntry := ⟨0#64, none, .both 0, .both nullBitboard⟩

/-- `sizeof(PawnHashEntry)` -/
abbrev bytes : Nat := 40

end PawnHashEntry

structure PawnHashTable where
  tableSize : Nat
  table : Nat → PawnHashEntry

namespace PawnHashTable

def create (bytes : Nat) : PawnHashTable where
  tableSize := if bytes / PawnHashEntry.bytes = 0 then 1 else bytes / PawnHashEntry.bytes
  table _ := .invalid

variable (t : PawnHashTable)

def put (entry : PawnHashEntry) : PawnHashTable :=
  { t with table := Function.update t.table (entry.hashkey.toNat % t.tableSize) entry }

/-- What `*entry` is afterwards: the entry of the slot, or the old one made invalid. -/
def probe (hashkey : Hashkey) (entry : PawnHashEntry) : PawnHashEntry :=
  let e := t.table (hashkey.toNat % t.tableSize)
  if e.phase = none ∨ e.hashkey ≠ hashkey then { entry with phase := none } else e

end PawnHashTable

/-! ## The evaluator -/

structure Evaluator where
  pawnhashtable : Option PawnHashTable
  evalcache : Option EvaluationCache
  pawnhashentry : PawnHashEntry
  passedPawns : PerColor Bitboard

namespace Evaluator

/-- A new evaluator, without tables. -/
def create : Evaluator := ⟨none, none, .invalid, .both nullBitboard⟩

/-- `set_pawnhash_size`: no bytes, no table. -/
def setPawnhashSize (e : Evaluator) (bytes : Nat) : Evaluator :=
  { e with pawnhashtable := if bytes > 0 then some (.create bytes) else none }

def setEvalcacheSize (e : Evaluator) (bytes : Nat) : Evaluator :=
  { e with evalcache := if bytes > 0 then some (.create bytes) else none }

abbrev evalCutoffMaterial : Int := 150
abbrev evalCutoffPhase1 : Int := 5

/-- The score of the material for the side to move. -/
def material (b : Board) : Int :=
  materialBalance (b.material.get b.side) (b.material.get b.side.xside)

/-- The material alone is too far outside the window. -/
def cutoff (b : Board) (alpha beta : Int) : Bool :=
  material b ≥ beta + evalCutoffMaterial || material b ≤ alpha - evalCutoffMaterial

section Evaluate

variable [Build] (e : Evaluator) (b : Board)

/-- What `setup` does besides remembering board and phase. -/
def setup : Evaluator :=
  match e.pawnhashtable with
  | some t => { e with pawnhashentry := t.probe b.pawnhashkey e.pawnhashentry }
  | none => { e with pawnhashentry := { e.pawnhashentry with phase := none } }

def scorePawns (phase : Phase) (side : Color) : Int × Evaluator :=
  if e.pawnhashentry.phase = some phase then
    (e.pawnhashentry.score.get side,
      { e with passedPawns := e.passedPawns.set side (e.pawnhashentry.passed.get side) })
  else
    let (score, passed) := b.scorePawnsLoop phase side
    (score,
      { e with
        passedPawns := e.passedPawns.set side passed
        pawnhashentry :=
          { e.pawnhashentry with
            score := e.pawnhashentry.score.set side score
            passed := e.pawnhashentry.passed.set side passed } })

def finish (phase : Phase) : Evaluator :=
  match e.pawnhashtable with
  | none => e
  | some t =>
    let entry := { e.pawnhashentry with hashkey := b.pawnhashkey, phase := some phase }
    { e with pawnhashentry := entry, pawnhashtable := some (t.put entry) }

/-- The plugins of phase 1, for the side to move and then the other one. -/
def phase1 (phase : Phase) : Int × Evaluator :=
  let side := b.side
  let xside := b.side.xside
  let (p, e) := e.scorePawns b phase side
  let (px, e) := e.scorePawns b phase xside
  (p - px + (b.scorePlugins phase (e.passedPawns.get side) side -
    b.scorePlugins phase (e.passedPawns.get xside) xside), e)

/-- `plugins2`: the control over the board. -/
def phase2 : Int := b.scoreControl b.side - b.scoreControl b.side.xside

/-- The score from those of material and plugins; phase 2 is left out if phase 1 says enough. -/
def total (mat score1 score2 : Int) : Int :=
  if score1 > evalCutoffPhase1 ∨ score1 < -evalCutoffPhase1 then mat + score1
  else mat + score1 + score2

/-- From `setup` to `finish`. -/
def evaluate : Int × Evaluator :=
  let phase := getPhase b
  let (score1, e) := (e.setup b).phase1 b phase
  (total (material b) score1 (phase2 b), e.finish b phase)

def eval (alpha beta : Int) : Int × Evaluator :=
  if cutoff b alpha beta then (material b, e)
  else
    match e.evalcache.bind (fun c => c.probe b) with
    | some score => (score, e)
    | none =>
      let (score, e) := e.evaluate b
      (score, { e with evalcache := e.evalcache.map (fun c => c.put b score) })

end Evaluate

/-! ## Sequences of calls -/

/-- The arguments of a call. -/
structure Call where
  board : Board
  alpha : Int
  beta : Int

/-- The scores of a sequence of calls, with the evaluator after each. -/
def run [Build] (e : Evaluator) : List Call → List (Int × Evaluator)
  | [] => []
  | c :: cs =>
    let r := e.eval c.board c.alpha c.beta
    r :: run r.2 cs

end Evaluator

end HoiChess
