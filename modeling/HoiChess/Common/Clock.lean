import HoiChess.Chess.Basic

/-!
# Chess clocks

Times of a clock are in milliseconds, the system time is in microseconds and
is passed to the functions that read it.  A clock that was never started holds
whatever the memory held in `start_time` and `stop_time`; the model puts zero
there.
-/

namespace HoiChess

inductive ClockMode where
  | none
  | conv
  | incr
  | suddendeath
  | exact
  deriving DecidableEq, Repr

/-- `get_realtime_us()` -/
abbrev Realtime := BitVec 64

structure Clock where
  mode : ClockMode
  running : Bool
  startTime : Realtime
  stopTime : Realtime
  limit : Int
  hardLimit : Int
  remainingTime : Int
  remainingMoves : BitVec 32
  baseTime : Int
  baseMoves : BitVec 32
  increment : Int
  overTime : Int
  lostTime : Int
  deriving DecidableEq, Repr

namespace Clock

/-- `Clock()` -/
def untimed : Clock where
  mode := .none
  running := false
  startTime := 0
  stopTime := 0
  limit := 0
  hardLimit := 0
  remainingTime := 0
  remainingMoves := 0
  baseTime := 0
  baseMoves := 0
  increment := 0
  overTime := 0
  lostTime := 0

variable (c : Clock)

def start (now : Realtime) : Clock :=
  if c.running then c else { c with startTime := now, running := true }

/-- `get_elapsed_time()` of a stopped clock. -/
def elapsedStopped : Int := ((c.stopTime - c.startTime) / 1000#64).toNat

def updateRemaining (elapsed : Int) : Clock :=
  match c.mode with
  | .none | .exact => c
  | .conv =>
    let c := { c with remainingTime := c.remainingTime - elapsed,
                      remainingMoves := c.remainingMoves - 1 }
    if c.remainingMoves = 0 then
      { c with remainingTime := c.remainingTime + c.baseTime, remainingMoves := c.baseMoves }
    else c
  | .incr => { c with remainingTime := c.remainingTime - elapsed + c.increment }
  | .suddendeath => { c with remainingTime := c.remainingTime - elapsed }

def stop (now : Realtime) : Clock :=
  if !c.running then c
  else
    let c := { c with stopTime := now, running := false }
    let elapsed := c.elapsedStopped
    let c := c.updateRemaining elapsed
    { c with overTime := if c.mode ≠ .none ∧ elapsed > c.limit then elapsed - c.limit else 0 }

end Clock

end HoiChess
