import HoiChess.Lib.Monitor
import Mathlib.Algebra.BigOperators.Group.Finset.Basic
import Mathlib.Algebra.BigOperators.Group.Finset.Piecewise
import Mathlib.Algebra.Order.BigOperators.Group.Finset
import Mathlib.Data.Fintype.Card
import Mathlib.Data.List.DropRight

/-!
# The queue between threads

`Queue<T>` with a pthread mutex and condition variable.  Each statement of `put`, `get`, `wait` and
`clear` is a position of a monitor.  For any number of threads and any interleaving the queue
behaves as one whose operations are single steps (`fifo`): elements come out in the order in
which they were put in, none twice, and none is lost unless the queue is cleared.  A wake-up is
lost only where a thread in `wait` takes the signal meant for one in `get`
(`no_lost_wakeup`, `wakeup_lost`).
-/

namespace HoiChess

open Transition Monitor

/-- The calls of a queue. -/
inductive QueueOp (α : Type) where
  | put (elem : α)
  | get
  | wait
  | clear
  deriving DecidableEq

inductive QueueAnswer (α : Type) where
  | unit
  | elem (e : α)
  | bool (b : Bool)
  deriving DecidableEq

/-- The statements of the four functions. -/
inductive QueuePos (α : Type) where
  | putLock (elem : α)
  | pushBack (elem : α)
  | putSignal
  | putUnlock
  | putReturn
  | getLock
  | getEmpty
  | getWait
  | popFront
  | getUnlock (elem : α)
  | getReturn (elem : α)
  | waitLock
  | waitEmpty
  | timedwait
  | waitUnlock (ret : Bool)
  | waitReturn (ret : Bool)
  | clearLock
  | erase
  | clearUnlock
  | clearReturn
  deriving DecidableEq

namespace Queue

variable {α : Type}

def entry : QueueOp α → QueuePos α
  | .put elem => .putLock elem
  | .get => .getLock
  | .wait => .waitLock
  | .clear => .clearLock

/-- The functions of the queue.  `front()` of an empty list has no defined outcome. -/
def stmt : QueuePos α → Instr (List α) (QueuePos α) (QueueAnswer α)
  | .putLock elem => .lock (.pushBack elem)
  | .pushBack elem => .access fun queue => some (queue ++ [elem], .putSignal)
  | .putSignal => .signal .putUnlock
  | .putUnlock => .unlock .putReturn
  | .putReturn => .ret .unit
  | .getLock => .lock .getEmpty
  | .getEmpty => .access fun queue => some (queue, if queue = [] then .getWait else .popFront)
  | .getWait => .wait .getEmpty
  | .popFront => .access fun queue => queue.head?.map fun elem => (queue.tail, .getUnlock elem)
  | .getUnlock elem => .unlock (.getReturn elem)
  | .getReturn elem => .ret (.elem elem)
  | .waitLock => .lock .waitEmpty
  | .waitEmpty => .access fun queue => some (queue, if queue = [] then .timedwait else .waitUnlock true)
  | .timedwait => .timedwait .waitEmpty (.waitUnlock false)
  | .waitUnlock ret => .unlock (.waitReturn ret)
  | .waitReturn ret => .ret (.bool ret)
  | .clearLock => .lock .erase
  | .erase => .access fun _ => some ([], .clearUnlock)
  | .clearUnlock => .unlock .clearReturn
  | .clearReturn => .ret .unit

/-- The thread holds the mutex. -/
def holds : QueuePos α → Bool
  | .pushBack _ | .putSignal | .putUnlock => true
  | .getEmpty | .getWait | .popFront | .getUnlock _ => true
  | .waitEmpty | .timedwait | .waitUnlock _ => true
  | .erase | .clearUnlock => true
  | _ => false

theorem stmt_locked (p : QueuePos α) : (stmt p).Locked holds p := by
  cases p with
  | pushBack elem =>
    refine ⟨rfl, fun q q' next h => ?_⟩
    cases h
    rfl
  | getEmpty =>
    refine ⟨rfl, fun q q' next h => ?_⟩
    cases h
    split <;> rfl
  | popFront =>
    refine ⟨rfl, fun q q' next h => ?_⟩
    obtain ⟨elem, _, he⟩ := Option.map_eq_some_iff.mp h
    cases he
    rfl
  | waitEmpty =>
    refine ⟨rfl, fun q q' next h => ?_⟩
    cases h
    split <;> rfl
  | erase =>
    refine ⟨rfl, fun q q' next h => ?_⟩
    cases h
    rfl
  | timedwait => exact ⟨rfl, rfl, rfl⟩
  | putSignal => rfl
  | putReturn => rfl
  | getReturn elem => rfl
  | waitReturn ret => rfl
  | clearReturn => rfl
  | _ => exact ⟨rfl, rfl⟩

def code : Code (QueueOp α) (List α) (QueuePos α) (QueueAnswer α) where
  entry := entry
  code := stmt
  holds := holds
  entry_free op := by cases op <;> rfl
  locked := stmt_locked

/-! ## First in, first out -/

/-- A queue whose operations are single steps.  `wait` may always give up. -/
def object : Object (QueueOp α) (List α) (QueueAnswer α)
  | .put elem, queue, queue', r => queue' = queue ++ [elem] ∧ r = .unit
  | .get, queue, queue', r => ∃ elem, queue = elem :: queue' ∧ r = .elem elem
  | .wait, queue, queue', r =>
    queue' = queue ∧ (r = .bool false ∨ r = .bool true ∧ queue ≠ [])
  | .clear, _, queue', r => queue' = [] ∧ r = .unit

def phase : QueuePos α → Phase (QueueOp α) (QueueAnswer α)
  | .putLock elem | .pushBack elem => .called (.put elem)
  | .getLock | .getEmpty | .getWait | .popFront => .called .get
  | .waitLock | .waitEmpty | .timedwait => .called .wait
  | .clearLock | .erase => .called .clear
  | .putSignal | .putUnlock | .putReturn | .clearUnlock | .clearReturn => .done .unit
  | .getUnlock elem | .getReturn elem => .done (.elem elem)
  | .waitUnlock ret | .waitReturn ret => .done (.bool ret)

theorem stmt_linear (p : QueuePos α) : (stmt p).Linear phase object p := by
  cases p with
  | pushBack elem =>
    intro q q' next h
    cases h
    exact .inr ⟨.put elem, .unit, rfl, rfl, rfl, rfl⟩
  | getEmpty =>
    intro q q' next h
    cases h
    exact .inl ⟨rfl, by split <;> rfl⟩
  | popFront =>
    intro q q' next h
    obtain ⟨elem, hhead, he⟩ := Option.map_eq_some_iff.mp h
    cases he
    exact .inr ⟨.get, .elem elem, rfl, rfl, elem, (List.cons_head?_tail hhead).symm, rfl⟩
  | waitEmpty =>
    intro q q' next h
    cases h
    by_cases hq : q = []
    · rw [if_pos hq]
      exact .inl ⟨rfl, rfl⟩
    · rw [if_neg hq]
      exact .inr ⟨.wait, .bool true, rfl, rfl, rfl, .inr ⟨rfl, hq⟩⟩
  | timedwait => exact ⟨rfl, fun q => .inr ⟨.wait, .bool false, rfl, rfl, rfl, .inl rfl⟩⟩
  | erase =>
    intro q q' next h
    cases h
    exact .inr ⟨.clear, .unit, rfl, rfl, rfl, rfl⟩
  | _ => rfl

def linear : Linear (code (α := α)) object where
  phase := phase
  entry op := by cases op <;> rfl
  linear := stmt_linear

variable {T : Type}

/-- What a step puts into the queue. -/
def putIn : Atomic.Label T (QueueOp α) (QueueAnswer α) → Option α
  | .act _ (.put elem) _ => some elem
  | _ => none

/-- What a step takes out of it. -/
def takenOut : Atomic.Label T (QueueOp α) (QueueAnswer α) → Option α
  | .act _ .get (.elem elem) => some elem
  | _ => none

def clears : Atomic.Label T (QueueOp α) (QueueAnswer α) → Bool
  | .act _ .clear _ => true
  | _ => false

/-- What has happened since the last `clear`. -/
def sinceClear (as : List (Atomic.Label T (QueueOp α) (QueueAnswer α))) :
    List (Atomic.Label T (QueueOp α) (QueueAnswer α)) := as.rtakeWhile fun a => !clears a

/-- What was taken out is followed by what is in the queue, in the order in which all of it came,
and since the last `clear` nothing is missing. -/
def InOrder (as : List (Atomic.Label T (QueueOp α) (QueueAnswer α))) (queue : List α) : Prop :=
  (as.filterMap takenOut ++ queue).Sublist (as.filterMap putIn) ∧
    (sinceClear as).filterMap takenOut ++ queue = (sinceClear as).filterMap putIn

variable {as : List (Atomic.Label T (QueueOp α) (QueueAnswer α))} {queue : List α}

/-- Without a `clear` nothing is missing at all. -/
theorem InOrder.complete (h : InOrder as queue) (hc : ∀ a ∈ as, clears a = false) :
    as.filterMap takenOut ++ queue = as.filterMap putIn := by
  have hall : sinceClear as = as := by
    refine List.rtakeWhile_eq_self_iff.mpr fun a ha => ?_
    rw [hc a ha]
    rfl
  rw [← hall]
  exact h.2

theorem sinceClear_concat {a : Atomic.Label T (QueueOp α) (QueueAnswer α)} (ha : clears a = false) :
    sinceClear (as ++ [a]) = sinceClear as ++ [a] :=
  List.rtakeWhile_concat_pos _ _ _ (by rw [ha]; rfl)

theorem InOrder.put (h : InOrder as queue) (t : T) (elem : α) (r : QueueAnswer α) :
    InOrder (as ++ [.act t (.put elem) r]) (queue ++ [elem]) := by
  have hput : putIn (.act t (.put elem) r) = some elem := rfl
  have htaken : takenOut (.act t (.put elem) r) = none := rfl
  simp only [InOrder, sinceClear_concat (a := .act t (.put elem) r) rfl, List.filterMap_append,
    List.filterMap_cons_some hput, List.filterMap_cons_none htaken, List.filterMap_nil,
    List.append_nil, ← List.append_assoc]
  exact ⟨h.1.append (.refl _), congrArg (· ++ [elem]) h.2⟩

theorem InOrder.get {elem : α} (h : InOrder as (elem :: queue)) (t : T) :
    InOrder (as ++ [.act t .get (.elem elem)]) queue := by
  have hput : putIn (.act t (.get : QueueOp α) (.elem elem)) = none := rfl
  have htaken : takenOut (.act t .get (.elem elem)) = some elem := rfl
  simp only [InOrder, sinceClear_concat (a := .act t (.get : QueueOp α) (.elem elem)) rfl,
    List.filterMap_append, List.filterMap_cons_none hput, List.filterMap_cons_some htaken,
    List.filterMap_nil, List.append_nil, List.append_assoc, List.singleton_append]
  exact h

/-- A step that neither puts nor takes nor clears. -/
theorem InOrder.other {a : Atomic.Label T (QueueOp α) (QueueAnswer α)} (h : InOrder as queue)
    (hput : putIn a = none) (htaken : takenOut a = none) (hclear : clears a = false) :
    InOrder (as ++ [a]) queue := by
  simp only [InOrder, sinceClear_concat hclear, List.filterMap_append,
    List.filterMap_cons_none hput, List.filterMap_cons_none htaken, List.filterMap_nil,
    List.append_nil]
  exact h

/-- `clear` loses what is in the queue. -/
theorem InOrder.clear (h : InOrder as queue) (t : T) (r : QueueAnswer α) :
    InOrder (as ++ [.act t .clear r]) [] := by
  have hput : putIn (.act t (.clear : QueueOp α) r) = none := rfl
  have htaken : takenOut (.act t (.clear : QueueOp α) r) = none := rfl
  have hnone : sinceClear (as ++ [.act t (.clear : QueueOp α) r]) = [] :=
    List.rtakeWhile_concat_neg _ _ _ (by simp [clears])
  simp only [InOrder, hnone, List.filterMap_append, List.filterMap_cons_none hput,
    List.filterMap_cons_none htaken, List.filterMap_nil, List.append_nil]
  exact ⟨(List.sublist_append_left _ _).trans h.1, trivial⟩

variable [DecidableEq T]

/-- Queues keep the order, and only `clear` loses something. -/
theorem object_inOrder {s : Atomic T (QueueOp α) (List α) (QueueAnswer α)}
    (h : Runs (Atomic.Step object) (Atomic.start []) as s) : InOrder as s.data := by
  induction h with
  | start => exact ⟨.slnil, rfl⟩
  | @next as s s' a _ hstep ih =>
    cases hstep with
    | call op hp => exact ih.other rfl rfl rfl
    | ret hp => exact ih.other rfl rfl rfl
    | @act t op r d hp hobj =>
      cases op with
      | put elem =>
        obtain ⟨rfl, rfl⟩ := hobj
        exact ih.put t elem .unit
      | get =>
        obtain ⟨elem, hq, rfl⟩ := hobj
        rw [hq] at ih
        exact ih.get t
      | wait =>
        obtain ⟨rfl, hr⟩ := hobj
        exact ih.other rfl rfl rfl
      | clear =>
        obtain ⟨rfl, rfl⟩ := hobj
        exact ih.clear t .unit

variable {ls : List (Label T (QueueOp α) (QueueAnswer α))} {s : State T (List α) (QueuePos α)}

/-- **First in, first out**, for any interleaving of any number of threads: the calls and answers
are those of a queue whose operations are single steps, in which elements leave in the order in
which they came, none twice, and none is lost without a `clear`. -/
theorem fifo (h : Runs (Step code) (State.start []) ls s) :
    ∃ as, Runs (Atomic.Step object) (Atomic.start []) as (linear.abs s) ∧
      as.filterMap Atomic.Label.event = ls.filterMap Label.event ∧ InOrder as s.data := by
  obtain ⟨as, hrun, hseen⟩ := linear.linearizes h
  exact ⟨as, hrun, hseen, object_inOrder hrun⟩

/-- A getter sleeps until an element is put. -/
def handOver : List (Choice Bool (QueueOp Nat)) :=
  [.call true .get, .go true, .go true, .go true, .call false (.put 7), .go false, .go false,
    .wake false true, .go false, .go false, .go true, .go true, .go true, .go true, .go true]

theorem fifo_handOver : ∃ ls s, code.play (State.start []) handOver = some (ls, s) ∧
    ∃ as, Runs (Atomic.Step object) (Atomic.start []) as (linear.abs s) ∧
      as.filterMap Atomic.Label.event = ls.filterMap Label.event ∧ InOrder as s.data := by
  have hplay : (code.play (State.start []) handOver).isSome = true := by decide
  obtain ⟨⟨ls, s⟩, hs⟩ := Option.isSome_iff_exists.mp hplay
  exact ⟨ls, s, hs, fifo (runs_of_play hs)⟩

/-! ## Wake-ups -/

/-- The functions of the queue. -/
inductive Func where
  | put
  | get
  | wait
  | clear
  deriving DecidableEq

def func : QueuePos α → Func
  | .putLock _ | .pushBack _ | .putSignal | .putUnlock | .putReturn => .put
  | .getLock | .getEmpty | .getWait | .popFront | .getUnlock _ | .getReturn _ => .get
  | .waitLock | .waitEmpty | .timedwait | .waitUnlock _ | .waitReturn _ => .wait
  | .clearLock | .erase | .clearUnlock | .clearReturn => .clear

/-- The function that a thread executes. -/
def runs : Place (QueuePos α) → Option Func
  | .idle => none
  | .at p => some (func p)
  | .asleep next _ => some (func next)
  | .waking next => some (func next)

/-- While a thread is in `wait`, no other thread is in `get` or `wait`: the queue has a single
reader, or its readers call `get` only. -/
def Apart (s : State T (List α) (QueuePos α)) : Prop :=
  ∀ t u, t ≠ u → runs (s.place t) = some .wait →
    runs (s.place u) ≠ some .get ∧ runs (s.place u) ≠ some .wait

/-- A call that keeps the readers apart. -/
def Admits (s : State T (List α) (QueuePos α)) : Label T (QueueOp α) (QueueAnswer α) → Prop
  | .seen (.call t .get) => ∀ u, u ≠ t → runs (s.place u) ≠ some .wait
  | .seen (.call t .wait) =>
    ∀ u, u ≠ t → runs (s.place u) ≠ some .get ∧ runs (s.place u) ≠ some .wait
  | _ => True

/-- What is known of the queue where a thread is. -/
def Fits (queue : List α) : Place (QueuePos α) → Prop
  | .at .getWait | .at .timedwait => queue = []
  | .at .popFront => queue ≠ []
  | .asleep next timedout =>
    next = .getEmpty ∧ timedout = none ∨
      next = .waitEmpty ∧ timedout = some (.waitUnlock false)
  | .waking next => next = .getEmpty ∨ next = .waitEmpty ∨ next = .waitUnlock false
  | _ => True

/-- The thread is about to take an element, or to signal that there is one. -/
def brings : Place (QueuePos α) → Bool
  | .at .putSignal | .at .getEmpty | .at .popFront | .waking .getEmpty => true
  | _ => false

/-! ### What the statements do -/

variable {p next timedout : QueuePos α}

theorem stmt_lock (h : stmt p = .lock next) (queue : List α) :
    func next = func p ∧ Fits queue (.at next) ∧ brings (.at p) = false := by
  cases p <;> cases h <;> exact ⟨rfl, trivial, rfl⟩

theorem stmt_unlock (h : stmt p = .unlock next) (queue : List α) :
    func next = func p ∧ Fits queue (.at next) ∧ brings (.at p) = false := by
  cases p <;> cases h <;> exact ⟨rfl, trivial, rfl⟩

theorem stmt_signal (h : stmt p = .signal next) : p = .putSignal ∧ next = .putUnlock := by
  cases p <;> cases h
  exact ⟨rfl, rfl⟩

theorem stmt_wait (h : stmt p = .wait next) : p = .getWait ∧ next = .getEmpty := by
  cases p <;> cases h
  exact ⟨rfl, rfl⟩

theorem stmt_timedwait (h : stmt p = .timedwait next timedout) :
    p = .timedwait ∧ next = .waitEmpty ∧ timedout = .waitUnlock false := by
  cases p <;> cases h
  exact ⟨rfl, rfl, rfl⟩

theorem stmt_ret {r : QueueAnswer α} (h : stmt p = .ret r) : brings (.at p) = false := by
  cases p <;> cases h <;> rfl

/-- An access goes on in the same function where it finds the queue as it has to be, and as many
elements as it adds, so many more threads bring one. -/
theorem stmt_access {f : List α → Option (List α × QueuePos α)} {queue queue' : List α}
    (h : stmt p = .access f) (hf : f queue = some (queue', next)) :
    func next = func p ∧ Fits queue' (.at next) ∧
      (queue' = [] ∨ queue'.length + (brings (.at p)).toNat ≤
        queue.length + (brings (.at next)).toNat) := by
  cases p with
  | pushBack elem =>
    cases h
    cases hf
    exact ⟨rfl, trivial, .inr (by simp [brings])⟩
  | getEmpty =>
    cases h
    cases hf
    by_cases hq : queue = []
    · rw [if_pos hq]
      exact ⟨rfl, hq, .inl hq⟩
    · rw [if_neg hq]
      exact ⟨rfl, hq, .inr le_rfl⟩
  | popFront =>
    cases h
    obtain ⟨elem, hhead, he⟩ := Option.map_eq_some_iff.mp hf
    cases he
    rw [← List.cons_head?_tail hhead]
    exact ⟨rfl, trivial, .inr (by simp [brings])⟩
  | waitEmpty =>
    cases h
    cases hf
    by_cases hq : queue = []
    · rw [if_pos hq]
      exact ⟨rfl, hq, .inl hq⟩
    · rw [if_neg hq]
      exact ⟨rfl, trivial, .inr le_rfl⟩
  | erase =>
    cases h
    cases hf
    exact ⟨rfl, trivial, .inl rfl⟩
  | _ => cases h

/-! ### What the threads execute -/

variable {l : Label T (QueueOp α) (QueueAnswer α)} {s' : State T (List α) (QueuePos α)}

/-- A thread goes on in its function, or returns from it, or calls one. -/
def Continues (s : State T (List α) (QueuePos α)) (l : Label T (QueueOp α) (QueueAnswer α))
    (s' : State T (List α) (QueuePos α)) : Prop :=
  ∀ u, runs (s'.place u) = runs (s.place u) ∨ runs (s'.place u) = none ∨
    ∃ op, l = .seen (.call u op) ∧ runs (s'.place u) = some (func (entry op))

theorem continues_move {t : T} {x : Place (QueuePos α)}
    (h : runs x = runs (s.place t) ∨ runs x = none ∨
      ∃ op, l = .seen (.call t op) ∧ runs x = some (func (entry op))) :
    Continues s l (s.move t x) := by
  intro u
  by_cases hu : u = t
  · subst hu
    rwa [s.move_place]
  · exact .inl (congrArg runs (s.move_place_ne x hu))

theorem step_continues (hfits : ∀ t, Fits s.data (s.place t)) (h : Step code s l s') :
    Continues s l s' := by
  cases h with
  | call op hi => exact continues_move (.inr (.inr ⟨op, rfl, rfl⟩))
  | @lock t p next hi hp hfree =>
    refine continues_move (.inl ?_)
    rw [hi]
    exact congrArg some (stmt_lock hp s.data).1
  | @unlock t p next hi hp =>
    refine continues_move (.inl ?_)
    rw [hi]
    exact congrArg some (stmt_unlock hp s.data).1
  | @access t p next f queue hi hp hf =>
    refine continues_move (.inl ?_)
    rw [hi]
    exact congrArg some (stmt_access hp hf).1
  | @signal t u p next next' timedout hi hp hu =>
    have htu : t ≠ u := by
      rintro rfl
      rw [hi] at hu
      cases hu
    obtain ⟨rfl, rfl⟩ := stmt_signal hp
    have hwake : Continues s (.tau t) (s.move u (.waking next')) := by
      refine continues_move (.inl ?_)
      rw [hu]
      rfl
    have hgo : Continues (s.move u (.waking next')) (.tau t)
        ((s.move u (.waking next')).move t (.at .putUnlock)) := by
      refine continues_move (.inl ?_)
      rw [s.move_place_ne _ htu, hi]
      rfl
    intro v
    rcases hgo v with he | he | ⟨op, he, -⟩
    · rw [he]
      exact hwake v
    · exact .inr (.inl he)
    · cases he
  | @signalNone t p next hi hp hnone =>
    obtain ⟨rfl, rfl⟩ := stmt_signal hp
    refine continues_move (.inl ?_)
    rw [hi]
    rfl
  | @wait t p next hi hp =>
    obtain ⟨rfl, rfl⟩ := stmt_wait hp
    refine continues_move (.inl ?_)
    rw [hi]
    rfl
  | @timedwait t p next timedout hi hp =>
    obtain ⟨rfl, rfl, rfl⟩ := stmt_timedwait hp
    refine continues_move (.inl ?_)
    rw [hi]
    rfl
  | @spurious t next timedout hi =>
    refine continues_move (.inl ?_)
    rw [hi]
    rfl
  | @timeout t next timedout hi =>
    refine continues_move (.inl ?_)
    have hf := hfits t
    rw [hi] at hf ⊢
    rcases hf with ⟨-, hnone⟩ | ⟨rfl, hsome⟩
    · cases hnone
    · cases hsome
      rfl
  | @reacquire t next hi hfree =>
    refine continues_move (.inl ?_)
    rw [hi]
    rfl
  | ret hi hp => exact continues_move (.inr (.inl rfl))

omit [DecidableEq T] in
theorem Apart.step (h : Apart s) (hc : Continues s l s') (ha : Admits s l) : Apart s' := by
  intro t u htu ht
  have hu : ∀ f, runs (s'.place u) = some f →
      runs (s.place u) = some f ∨ ∃ op, l = .seen (.call u op) ∧ f = func (entry op) := by
    intro f hf
    rcases hc u with he | he | ⟨op, hl, he⟩
    · exact .inl (he ▸ hf)
    · rw [he] at hf
      cases hf
    · exact .inr ⟨op, hl, Option.some.inj (hf.symm.trans he)⟩
  rcases hc t with he | he | ⟨op, rfl, he⟩
  · have hwait : runs (s.place t) = some .wait := he ▸ ht
    obtain ⟨hget', hwait'⟩ := h t u htu hwait
    constructor
    · intro hf
      rcases hu .get hf with hf | ⟨op, rfl, hop⟩
      · exact hget' hf
      · cases op <;> cases hop
        exact ha t htu hwait
    · intro hf
      rcases hu .wait hf with hf | ⟨op, rfl, hop⟩
      · exact hwait' hf
      · cases op <;> cases hop
        exact (ha t htu).2 hwait
  · rw [he] at ht
    cases ht
  · have hop : func (entry op) = .wait := Option.some.inj (he.symm.trans ht)
    have hkeep : ∀ f, runs (s'.place u) = some f → runs (s.place u) = some f := by
      intro f hf
      rcases hu f hf with hf | ⟨op', hl, -⟩
      · exact hf
      · cases hl
        exact absurd rfl htu
    cases op <;> cases hop
    exact ⟨fun hf => (ha u htu.symm).1 (hkeep .get hf), fun hf => (ha u htu.symm).2 (hkeep .wait hf)⟩

section Bringers

variable [Fintype T]

/-- How many threads bring an element. -/
def bringers (s : State T (List α) (QueuePos α)) : Nat := ∑ t, (brings (s.place t)).toNat

theorem bringers_move (s : State T (List α) (QueuePos α)) (t : T) (x : Place (QueuePos α)) :
    bringers (s.move t x) + (brings (s.place t)).toNat = bringers s + (brings x).toNat := by
  have hcomp : (fun u => (brings ((s.move t x).place u)).toNat) =
      Function.update (fun u => (brings (s.place u)).toNat) t (brings x).toNat := by
    funext u
    by_cases hu : u = t
    · subst hu
      rw [s.move_place, Function.update_self]
    · rw [s.move_place_ne x hu, Function.update_of_ne hu]
  unfold bringers
  rw [hcomp, Finset.sum_update_of_mem (Finset.mem_univ t),
    ← Finset.sum_sdiff (Finset.subset_univ {t}), Finset.sum_singleton]
  omega

/-- While a thread sleeps, every element in the queue is brought to a reader. -/
structure Lively (s : State T (List α) (QueuePos α)) : Prop where
  exclusive : Exclusive code s
  apart : Apart s
  fits : ∀ t, Fits s.data (s.place t)
  enough : ∀ t, (s.place t).sleeps = true → s.data.length ≤ bringers s

omit [DecidableEq T] in
theorem Lively.fits_of (h : Lively s) {t : T} {x : Place (QueuePos α)} (hi : s.place t = x) :
    Fits s.data x := hi ▸ h.fits t

/-- Where the queue is known, the thread holds the mutex. -/
theorem Fits.other {queue queue' : List α} {y : Place (QueuePos α)} (h : Fits queue y)
    (hy : ¬ code.Holds y) : Fits queue' y := by
  cases y with
  | «at» p => cases p <;> trivial
  | _ => exact h

/-- **One thread moves**, and changes the queue only if it holds the mutex. -/
theorem Lively.change (h : Lively s) {t : T} {x : Place (QueuePos α)} {o : Option T}
    {queue : List α} (hex : Exclusive code { s.move t x with owner := o, data := queue })
    (hapart : Apart (s.move t x)) (hdata : queue = s.data ∨ code.Holds (s.place t))
    (hfits : Fits queue x)
    (henough : ∀ u, ((s.move t x).place u).sleeps = true → queue.length ≤ bringers (s.move t x)) :
    Lively { s.move t x with owner := o, data := queue } := by
  refine ⟨hex, hapart, fun u => ?_, henough⟩
  show Fits queue ((s.move t x).place u)
  by_cases hut : u = t
  · subst hut
    rwa [s.move_place]
  · rw [s.move_place_ne x hut]
    rcases hdata with rfl | hholds
    · exact h.fits u
    · refine (h.fits u).other fun hu => hut ?_
      exact Option.some.inj (((h.exclusive.owner u).mp hu).symm.trans
        ((h.exclusive.owner t).mp hholds))

/-- A thread that does not fall asleep brings what it adds. -/
theorem Lively.enough_move (h : Lively s) {t : T} {x : Place (QueuePos α)} {queue : List α}
    (hx : x.sleeps = false) (hle : queue = [] ∨ queue.length + (brings (s.place t)).toNat ≤
      s.data.length + (brings x).toNat) (u : T) (hu : ((s.move t x).place u).sleeps = true) :
    queue.length ≤ bringers (s.move t x) := by
  have hut : u ≠ t := by
    rintro rfl
    rw [s.move_place, hx] at hu
    cases hu
  rw [s.move_place_ne x hut] at hu
  have hlen := h.enough u hu
  have hb := bringers_move s t x
  rcases hle with rfl | hle
  · exact Nat.zero_le _
  · omega

/-- A thread that wakes up, for whatever reason. -/
theorem Lively.enough_wake (h : Lively s) {t : T} {next : QueuePos α} {timedout : Option (QueuePos α)}
    {q : QueuePos α} (hi : s.place t = .asleep next timedout) (u : T)
    (hu : ((s.move t (.waking q)).place u).sleeps = true) :
    s.data.length ≤ bringers (s.move t (.waking q)) := by
  refine h.enough_move rfl (.inr ?_) u hu
  rw [hi]
  exact Nat.le_add_right _ _

omit [DecidableEq T] in
/-- A reader in `wait` is the only one that may sleep. -/
theorem Lively.alone (h : Lively s) {t u : T} (htu : t ≠ u)
    (ht : runs (s.place t) = some .wait) : (s.place u).sleeps = false := by
  obtain ⟨hget, hwait⟩ := h.apart t u htu ht
  have hfits := h.fits u
  cases hu : s.place u with
  | asleep next timedout =>
    rw [hu] at hget hwait hfits
    rcases hfits with ⟨rfl, -⟩ | ⟨rfl, -⟩
    · exact absurd rfl hget
    · exact absurd rfl hwait
  | _ => rfl

/-- A sleeper wakes up. -/
theorem Lively.wake (h : Lively s) {t : T} {next : QueuePos α} {timedout : Option (QueuePos α)}
    (hi : s.place t = .asleep next timedout) : Lively (s.move t (.waking next)) := by
  have hwake : Step code s (.tau t) (s.move t (.waking next)) := .spurious hi
  have hcont := step_continues h.fits hwake
  refine h.change (hwake.exclusive h.exclusive) (h.apart.step hcont trivial) (.inl rfl) ?_
    (h.enough_wake hi)
  rcases h.fits_of hi with ⟨rfl, -⟩ | ⟨rfl, -⟩
  · exact .inl rfl
  · exact .inr (.inl rfl)

/-- A writer wakes up a sleeper, who brings what the writer brought. -/
theorem Lively.enough_signal (h : Lively s) {t u v : T} {next : QueuePos α}
    {timedout : Option (QueuePos α)} (hi : s.place t = .at .putSignal)
    (hu : s.place u = .asleep next timedout)
    (hv : (((s.move u (.waking next)).move t (.at .putUnlock)).place v).sleeps = true) :
    s.data.length ≤ bringers ((s.move u (.waking next)).move t (.at .putUnlock)) := by
  have htu : t ≠ u := by
    rintro rfl
    rw [hi] at hu
    cases hu
  have hvt : v ≠ t := by
    rintro rfl
    rw [State.move_place] at hv
    cases hv
  have hvu : v ≠ u := by
    rintro rfl
    rw [State.move_place_ne _ _ hvt, State.move_place] at hv
    cases hv
  rw [State.move_place_ne _ _ hvt, s.move_place_ne _ hvu] at hv
  rcases h.fits_of hu with ⟨rfl, -⟩ | ⟨rfl, -⟩
  · have hlen := h.enough v hv
    have hb := bringers_move s u (.waking .getEmpty)
    have hb' := bringers_move (s.move u (.waking .getEmpty)) t (.at .putUnlock)
    rw [hu] at hb
    rw [s.move_place_ne _ htu, hi] at hb'
    simp only [brings, Bool.toNat_true, Bool.toNat_false] at hb hb'
    omega
  · rw [h.alone hvu.symm (by rw [hu]; rfl)] at hv
    cases hv

/-- There is nobody to wake up. -/
theorem enough_signalNone {t v : T} {p : QueuePos α}
    (hnone : ∀ u next timedout, s.place u ≠ .asleep next timedout)
    (hv : ((s.move t (.at p)).place v).sleeps = true) : s.data.length ≤ bringers (s.move t (.at p)) := by
  by_cases hvt : v = t
  · subst hvt
    rw [s.move_place] at hv
    cases hv
  · rw [s.move_place_ne _ hvt] at hv
    cases hpl : s.place v with
    | asleep next timedout => exact absurd hpl (hnone v next timedout)
    | _ =>
      rw [hpl] at hv
      cases hv

/-- A thread falls asleep, which it does only while the queue is empty. -/
theorem Lively.sleep (h : Lively s) {t : T} {next : QueuePos α} {timedout : Option (QueuePos α)}
    (hempty : s.data = [])
    (hex : Exclusive code { s.move t (.asleep next timedout) with owner := none })
    (hapart : Apart (s.move t (.asleep next timedout))) (hfits : Fits s.data (.asleep next timedout)) :
    Lively { s.move t (.asleep next timedout) with owner := none } := by
  refine h.change hex hapart (.inl rfl) hfits fun v hv => ?_
  show s.data.length ≤ _
  rw [hempty]
  exact Nat.zero_le _

/-- **Every step that is admitted keeps the elements on their way.** -/
theorem Lively.step (h : Lively s) (ha : Admits s l) (hstep : Step code s l s') : Lively s' := by
  have hex := hstep.exclusive h.exclusive
  have hapart := h.apart.step (step_continues h.fits hstep) ha
  cases hstep with
  | call op hi =>
    refine h.change hex hapart (.inl rfl) (by cases op <;> trivial) (h.enough_move rfl (.inr ?_))
    rw [hi]
    exact Nat.le_add_right _ _
  | lock hi hp hfree =>
    obtain ⟨-, hfits, hb⟩ := stmt_lock hp s.data
    refine h.change hex hapart (.inl rfl) hfits (h.enough_move rfl (.inr ?_))
    rw [hi, hb]
    exact Nat.le_add_right _ _
  | unlock hi hp =>
    obtain ⟨-, hfits, hb⟩ := stmt_unlock hp s.data
    refine h.change hex hapart (.inl rfl) hfits (h.enough_move rfl (.inr ?_))
    rw [hi, hb]
    exact Nat.le_add_right _ _
  | access hi hp hf =>
    obtain ⟨-, hfits, hle⟩ := stmt_access hp hf
    refine h.change hex hapart (.inr ?_) hfits (h.enough_move rfl (hi ▸ hle))
    exact hi ▸ (code.locked_of hp).1
  | signal hi hp hu =>
    obtain ⟨rfl, rfl⟩ := stmt_signal hp
    exact (h.wake hu).change hex hapart (.inl rfl) trivial fun v hv => h.enough_signal hi hu hv
  | signalNone hi hp hnone =>
    obtain ⟨rfl, rfl⟩ := stmt_signal hp
    exact h.change hex hapart (.inl rfl) trivial fun v hv => enough_signalNone hnone hv
  | wait hi hp =>
    obtain ⟨rfl, rfl⟩ := stmt_wait hp
    exact h.sleep (h.fits_of hi) hex hapart (.inl ⟨rfl, rfl⟩)
  | timedwait hi hp =>
    obtain ⟨rfl, rfl, rfl⟩ := stmt_timedwait hp
    exact h.sleep (h.fits_of hi) hex hapart (.inr ⟨rfl, rfl⟩)
  | spurious hi => exact h.wake hi
  | timeout hi =>
    refine h.change hex hapart (.inl rfl) ?_ (h.enough_wake hi)
    rcases h.fits_of hi with ⟨-, hnone⟩ | ⟨-, hsome⟩
    · cases hnone
    · cases hsome
      exact .inr (.inr rfl)
  | reacquire hi hfree =>
    have hf := h.fits_of hi
    refine h.change hex hapart (.inl rfl) ?_ (h.enough_move rfl (.inr ?_))
    · rcases hf with rfl | rfl | rfl <;> trivial
    · rw [hi]
      rcases hf with rfl | rfl | rfl <;> exact le_rfl
  | ret hi hp =>
    refine h.change hex hapart (.inl rfl) trivial (h.enough_move rfl (.inr ?_))
    rw [hi, stmt_ret hp]
    exact Nat.le_add_right _ _

omit [DecidableEq T] in
theorem lively_start : Lively (State.start [] : State T (List α) (QueuePos α)) :=
  ⟨exclusive_start [], nofun, fun _ => trivial, nofun⟩

/-- A thread that holds the mutex is not stuck. -/
theorem Lively.can_go (h : Lively s) {t : T} (ht : code.Holds (s.place t)) :
    ∃ s', Step code s (.tau t) s' := by
  have hfits := h.fits t
  cases hi : s.place t with
  | «at» p =>
    rw [hi] at ht hfits
    cases p with
    | pushBack elem => exact ⟨_, .access hi rfl rfl⟩
    | putSignal =>
      by_cases hnone : ∀ u next' timedout, s.place u ≠ .asleep next' timedout
      · exact ⟨_, .signalNone hi rfl hnone⟩
      · push Not at hnone
        obtain ⟨u, next', timedout, hu⟩ := hnone
        exact ⟨_, .signal hi rfl hu⟩
    | getEmpty => exact ⟨_, .access hi rfl rfl⟩
    | getWait => exact ⟨_, .wait hi rfl⟩
    | popFront =>
      have hhead : s.data.head? = some (s.data.head hfits) := List.head?_eq_some_head hfits
      have hpop : (s.data.head?.map fun elem => (s.data.tail, QueuePos.getUnlock elem)) =
          some (s.data.tail, .getUnlock (s.data.head hfits)) := by
        rw [hhead]
        rfl
      exact ⟨_, .access hi rfl hpop⟩
    | waitEmpty => exact ⟨_, .access hi rfl rfl⟩
    | timedwait => exact ⟨_, .timedwait hi rfl⟩
    | erase => exact ⟨_, .access hi rfl rfl⟩
    | putUnlock => exact ⟨_, .unlock hi rfl⟩
    | getUnlock elem => exact ⟨_, .unlock hi rfl⟩
    | waitUnlock ret => exact ⟨_, .unlock hi rfl⟩
    | clearUnlock => exact ⟨_, .unlock hi rfl⟩
    | _ => cases ht
  | _ =>
    rw [hi] at ht
    exact ht.elim

theorem brings_holds {p : QueuePos α} (h : brings (.at p) = true) : holds p = true := by
  cases p <;> first | rfl | cases h

/-- Where an element is brought, some thread that is awake can go on. -/
theorem Lively.goes_on (h : Lively s) {t : T} (ht : brings (s.place t) = true) :
    ∃ u s', (s.place u).sleeps = false ∧ Step code s (.tau u) s' := by
  cases ho : s.owner with
  | some u =>
    have hu := (h.exclusive.owner u).mpr ho
    obtain ⟨s', hstep⟩ := h.can_go hu
    refine ⟨u, s', ?_, hstep⟩
    cases hi : s.place u with
    | asleep next timedout =>
      rw [hi] at hu
      exact hu.elim
    | _ => rfl
  | none =>
    have hfree : ¬ code.Holds (s.place t) := by
      rw [h.exclusive.owner t, ho]
      exact nofun
    cases hi : s.place t with
    | waking next => exact ⟨t, _, by rw [hi]; rfl, .reacquire hi ho⟩
    | «at» p =>
      rw [hi] at ht hfree
      exact absurd (brings_holds ht) hfree
    | _ =>
      rw [hi] at ht
      cases ht

/-- **No wake-up is lost** where readers are apart: while a reader sleeps, each element in the queue
is brought to one by a thread that is not asleep, and where there is an element some thread that
is awake can go on. -/
theorem no_lost_wakeup (h : Runs (Under Admits (Step code)) (State.start []) ls s) {t : T}
    (ht : (s.place t).sleeps = true) :
    s.data.length ≤ bringers s ∧
      (s.data ≠ [] → ∃ u s', (s.place u).sleeps = false ∧ Step code s (.tau u) s') := by
  have hl : Lively s := h.invariant lively_start fun _ _ _ hs hstep => hs.step hstep.1 hstep.2
  refine ⟨hl.enough t ht, fun hdata => ?_⟩
  have hpos : bringers s ≠ 0 := by
    have hlen := List.length_pos_iff.mpr hdata
    have hle := hl.enough t ht
    omega
  obtain ⟨u, -, hu⟩ := Finset.exists_ne_zero_of_sum_ne_zero hpos
  refine hl.goes_on (t := u) ?_
  cases hb : brings (s.place u) with
  | true => rfl
  | false =>
    rw [hb] at hu
    exact absurd rfl hu

/-- Where nobody calls `wait`, the readers are apart. -/
theorem admits_of_no_wait (h : Runs (Step code) (State.start []) ls s)
    (hls : ∀ l ∈ ls, ∀ t, l ≠ .seen (.call t .wait)) :
    Runs (Under Admits (Step code)) (State.start []) ls s := by
  refine h.under (P := fun s => Lively s ∧ ∀ t, runs (s.place t) ≠ some .wait)
    (R := fun l => ∀ t, l ≠ .seen (.call t .wait)) ⟨lively_start, fun _ => nofun⟩
    (fun s l s' hs hl hstep => ?_) hls
  have ha : Admits s l := by
    match l, hl with
    | .seen (.call t .get), _ => exact fun u _ => hs.2 u
    | .seen (.call t .wait), hl => exact absurd rfl (hl t)
    | .seen (.call t (.put elem)), _ => trivial
    | .seen (.call t .clear), _ => trivial
    | .seen (.ret t r), _ => trivial
    | .tau t, _ => trivial
  refine ⟨⟨hs.1.step ha hstep, fun t ht => ?_⟩, ha⟩
  rcases step_continues hs.1.fits hstep t with he | he | ⟨op, rfl, he⟩
  · exact hs.2 t (he ▸ ht)
  · rw [he] at ht
    cases ht
  · have hop : func (entry op) = .wait := Option.some.inj (he.symm.trans ht)
    cases op <;> cases hop
    exact hl t rfl

/-- The writer is about to signal that it brought the element the reader waits for. -/
theorem no_lost_wakeup_handOver : ∃ ls s,
    code.play (State.start []) (handOver.take 7) = some (ls, s) ∧ s.data = [7] ∧
      s.data.length ≤ bringers s ∧
      (s.data ≠ [] → ∃ u s', (s.place u).sleeps = false ∧ Step code s (.tau u) s') := by
  have hplay : (code.play (State.start []) (handOver.take 7)).any (fun r =>
      (r.2.place true).sleeps && r.2.data == [7] &&
        r.1.all fun l => decide (∀ t, l ≠ .seen (.call t .wait))) = true := by decide
  obtain ⟨⟨ls, s⟩, hs, hp⟩ := (Option.any_eq_true _ _).mp hplay
  simp only [Bool.and_eq_true, beq_iff_eq, List.all_eq_true, decide_eq_true_eq] at hp
  obtain ⟨⟨ht, hdata⟩, hls⟩ := hp
  exact ⟨ls, s, hs, hdata, no_lost_wakeup (admits_of_no_wait (runs_of_play hs) hls) ht⟩

end Bringers

/-- One reader sleeps in `get` and another in `wait`, which gets the signal. -/
def mixedReaders : List (Choice (Fin 3) (QueueOp Nat)) :=
  [.call 0 .get, .go 0, .go 0, .go 0, .call 1 .wait, .go 1, .go 1, .go 1, .call 2 (.put 7),
    .go 2, .go 2, .wake 2 1, .go 2, .go 2, .go 1, .go 1, .go 1, .go 1]

/-- Then the element stays, the reader in `get` sleeps on, and nobody is left to wake it. -/
theorem wakeup_lost : ∃ ls s, Runs (Step code) (State.start []) ls s ∧ s.data = [7] ∧
    (s.place 0).sleeps = true ∧ ∀ t : Fin 3, t ≠ 0 → s.place t = .idle := by
  have hplay : (code.play (State.start []) mixedReaders).any (fun r => r.2.data == [7] &&
      (r.2.place 0).sleeps && decide (∀ t : Fin 3, t ≠ 0 → r.2.place t = .idle)) = true := by
    decide
  obtain ⟨⟨ls, s⟩, hs, hp⟩ := (Option.any_eq_true _ _).mp hplay
  simp only [Bool.and_eq_true, beq_iff_eq, decide_eq_true_eq] at hp
  exact ⟨ls, s, runs_of_play hs, hp.1.1, hp.1.2, hp.2⟩

end Queue

end HoiChess
