import HoiChess.Lib.Transition
import Mathlib.Data.Fintype.Basic

/-!
# Monitors

Threads share some data under a mutex and sleep on one condition variable.  A procedure is a
table of statements; at each of its positions it says whether the thread holds the mutex there,
and the statements have to agree with that.  Sleepers may wake up for no reason, and it is left
open which of them a signal wakes.  At most one thread holds the mutex (`Step.exclusive`).  If
every procedure touches the data once, the monitor does what an object does whose operations are
single steps, with the same calls and the same answers (`Linear.linearizes`).
-/

namespace Monitor

open Transition

/-- One statement of a procedure, with the positions it goes on to.  An access to the data may
have no defined outcome. -/
inductive Instr (σ P ρ : Type) where
  | lock (next : P)
  | unlock (next : P)
  | access (f : σ → Option (σ × P))
  | signal (next : P)
  | wait (next : P)
  | timedwait (next timedout : P)
  | ret (r : ρ)

/-- The statement is executed with the mutex where that is said, and the data is touched under
the mutex only. -/
def Instr.Locked {σ P ρ : Type} (holds : P → Bool) (p : P) : Instr σ P ρ → Prop
  | lock next => holds p = false ∧ holds next = true
  | unlock next => holds p = true ∧ holds next = false
  | access f => holds p = true ∧ ∀ s s' next, f s = some (s', next) → holds next = true
  | signal next => holds next = holds p
  | wait next => holds p = true ∧ holds next = true
  | timedwait next timedout => holds p = true ∧ holds next = true ∧ holds timedout = true
  | ret _ => holds p = false

/-- The procedures of a monitor. -/
structure Code (O σ P ρ : Type) where
  entry : O → P
  code : P → Instr σ P ρ
  holds : P → Bool
  entry_free : ∀ op, holds (entry op) = false
  locked : ∀ p, (code p).Locked holds p

theorem Code.locked_of {O σ P ρ : Type} (c : Code O σ P ρ) {p : P} {i : Instr σ P ρ}
    (hp : c.code p = i) : i.Locked c.holds p := hp ▸ c.locked p

/-- Where a thread is.  A sleeper in a timed wait may go on at a second position. -/
inductive Place (P : Type) where
  | idle
  | at (p : P)
  | asleep (next : P) (timedout : Option P)
  | waking (next : P)
  deriving DecidableEq

structure State (T σ P : Type) where
  owner : Option T
  data : σ
  place : T → Place P

/-- What is seen of the threads from outside. -/
inductive Event (T O ρ : Type) where
  | call (t : T) (op : O)
  | ret (t : T) (r : ρ)
  deriving DecidableEq

/-- A step of a thread, which is seen or not. -/
inductive Label (T O ρ : Type) where
  | seen (e : Event T O ρ)
  | tau (t : T)
  deriving DecidableEq

def Label.event {T O ρ : Type} : Label T O ρ → Option (Event T O ρ)
  | seen e => some e
  | tau _ => none

variable {T O σ P ρ : Type} [DecidableEq T]

def State.move (s : State T σ P) (t : T) (x : Place P) : State T σ P :=
  { s with place := Function.update s.place t x }

@[simp] theorem State.move_place (s : State T σ P) (t : T) (x : Place P) :
    (s.move t x).place t = x := by
  show Function.update s.place t x t = x
  rw [Function.update_self]

theorem State.move_place_ne (s : State T σ P) {t u : T} (x : Place P) (h : u ≠ t) :
    (s.move t x).place u = s.place u := by
  show Function.update s.place t x u = s.place u
  rw [Function.update_of_ne h]

@[simp] theorem State.move_owner (s : State T σ P) (t : T) (x : Place P) :
    (s.move t x).owner = s.owner := rfl

@[simp] theorem State.move_data (s : State T σ P) (t : T) (x : Place P) :
    (s.move t x).data = s.data := rfl

/-- All threads are idle, the mutex is free. -/
def State.start (d : σ) : State T σ P := ⟨none, d, fun _ => .idle⟩

/-- A step of one thread; `signal` also moves the thread it wakes. -/
inductive Step (c : Code O σ P ρ) : State T σ P → Label T O ρ → State T σ P → Prop
  | call {s : State T σ P} {t : T} (op : O) (h : s.place t = .idle) :
      Step c s (.seen (.call t op)) (s.move t (.at (c.entry op)))
  | lock {s : State T σ P} {t : T} {p next : P} (h : s.place t = .at p)
      (hp : c.code p = .lock next) (hfree : s.owner = none) :
      Step c s (.tau t) { s.move t (.at next) with owner := some t }
  | unlock {s : State T σ P} {t : T} {p next : P} (h : s.place t = .at p)
      (hp : c.code p = .unlock next) :
      Step c s (.tau t) { s.move t (.at next) with owner := none }
  | access {s : State T σ P} {t : T} {p next : P} {f : σ → Option (σ × P)} {d : σ}
      (h : s.place t = .at p) (hp : c.code p = .access f) (hf : f s.data = some (d, next)) :
      Step c s (.tau t) { s.move t (.at next) with data := d }
  | signal {s : State T σ P} {t u : T} {p next next' : P} {timedout : Option P}
      (h : s.place t = .at p) (hp : c.code p = .signal next)
      (hu : s.place u = .asleep next' timedout) :
      Step c s (.tau t) ((s.move u (.waking next')).move t (.at next))
  | signalNone {s : State T σ P} {t : T} {p next : P} (h : s.place t = .at p)
      (hp : c.code p = .signal next)
      (hnone : ∀ u next' timedout, s.place u ≠ .asleep next' timedout) :
      Step c s (.tau t) (s.move t (.at next))
  | wait {s : State T σ P} {t : T} {p next : P} (h : s.place t = .at p)
      (hp : c.code p = .wait next) :
      Step c s (.tau t) { s.move t (.asleep next none) with owner := none }
  | timedwait {s : State T σ P} {t : T} {p next timedout : P} (h : s.place t = .at p)
      (hp : c.code p = .timedwait next timedout) :
      Step c s (.tau t) { s.move t (.asleep next (some timedout)) with owner := none }
  | spurious {s : State T σ P} {t : T} {next : P} {timedout : Option P}
      (h : s.place t = .asleep next timedout) : Step c s (.tau t) (s.move t (.waking next))
  | timeout {s : State T σ P} {t : T} {next timedout : P}
      (h : s.place t = .asleep next (some timedout)) :
      Step c s (.tau t) (s.move t (.waking timedout))
  | reacquire {s : State T σ P} {t : T} {next : P} (h : s.place t = .waking next)
      (hfree : s.owner = none) : Step c s (.tau t) { s.move t (.at next) with owner := some t }
  | ret {s : State T σ P} {t : T} {p : P} {r : ρ} (h : s.place t = .at p)
      (hp : c.code p = .ret r) : Step c s (.seen (.ret t r)) (s.move t .idle)

/-! ## Mutual exclusion -/

/-- A thread at this place holds the mutex. -/
def Code.Holds (c : Code O σ P ρ) : Place P → Prop
  | .at p => c.holds p = true
  | _ => False

/-- A thread that sleeps or wakes up goes on where it holds the mutex. -/
def Code.Resumes (c : Code O σ P ρ) : Place P → Prop
  | .asleep next timedout => c.holds next = true ∧ ∀ p ∈ timedout, c.holds p = true
  | .waking next => c.holds next = true
  | _ => True

structure Exclusive (c : Code O σ P ρ) (s : State T σ P) : Prop where
  owner : ∀ t, c.Holds (s.place t) ↔ s.owner = some t
  resumes : ∀ t, c.Resumes (s.place t)

variable {c : Code O σ P ρ} {s s' : State T σ P} {t u : T} {l : Label T O ρ} {ls : List (Label T O ρ)}

omit [DecidableEq T] in
theorem exclusive_start (d : σ) : Exclusive c (State.start d : State T σ P) :=
  ⟨fun _ => iff_of_false id nofun, fun _ => trivial⟩

omit [DecidableEq T] in
theorem Exclusive.resumes_of (h : Exclusive c s) {x : Place P} (hi : s.place t = x) :
    c.Resumes x := hi ▸ h.resumes t

/-- One thread moves and the owner changes accordingly. -/
theorem Exclusive.change (h : Exclusive c s) (t : T) (hplace : ∀ u, u ≠ t → s'.place u = s.place u)
    (howner : ∀ u, u ≠ t → (s'.owner = some u ↔ s.owner = some u))
    (ht : c.Holds (s'.place t) ↔ s'.owner = some t) (hr : c.Resumes (s'.place t)) :
    Exclusive c s' := by
  constructor
  · intro u
    by_cases hu : u = t
    · exact hu ▸ ht
    · rw [hplace u hu, howner u hu]
      exact h.owner u
  · intro u
    by_cases hu : u = t
    · exact hu ▸ hr
    · rw [hplace u hu]
      exact h.resumes u

/-- A thread moves and the mutex stays where it is. -/
theorem Exclusive.move (h : Exclusive c s) {x : Place P} (hx : c.Holds x ↔ c.Holds (s.place t))
    (hr : c.Resumes x) : Exclusive c (s.move t x) := by
  refine h.change t (fun u hu => s.move_place_ne x hu) (fun _ _ => Iff.rfl) ?_ ?_
  · rw [s.move_place, s.move_owner, hx]
    exact h.owner t
  · rw [s.move_place]
    exact hr

/-- The mutex was free, and the thread takes it. -/
theorem Exclusive.take (h : Exclusive c s) {p : P} (hfree : s.owner = none) (hp : c.holds p = true) :
    Exclusive c { s.move t (.at p) with owner := some t } := by
  refine h.change t (fun u hu => s.move_place_ne _ hu) (fun u hu => ?_) ?_ ?_
  · rw [hfree]
    exact iff_of_false (fun he => hu (Option.some.inj he).symm) nofun
  · show c.Holds ((s.move t (.at p)).place t) ↔ _
    rw [s.move_place]
    exact iff_of_true hp rfl
  · show c.Resumes ((s.move t (.at p)).place t)
    rw [s.move_place]
    trivial

/-- The thread had the mutex, and leaves it. -/
theorem Exclusive.leave (h : Exclusive c s) {x : Place P} (hh : c.Holds (s.place t))
    (hx : ¬ c.Holds x) (hr : c.Resumes x) : Exclusive c { s.move t x with owner := none } := by
  have ho := (h.owner t).mp hh
  refine h.change t (fun u hu => s.move_place_ne _ hu) (fun u hu => ?_) ?_ ?_
  · rw [ho]
    exact iff_of_false nofun fun he => hu (Option.some.inj he).symm
  · show c.Holds ((s.move t x).place t) ↔ _
    rw [s.move_place]
    exact iff_of_false hx nofun
  · show c.Resumes ((s.move t x).place t)
    rw [s.move_place]
    exact hr

/-- **No step breaks mutual exclusion.** -/
theorem Step.exclusive (h : Step c s l s') (hs : Exclusive c s) : Exclusive c s' := by
  cases h with
  | call op hi =>
    refine hs.move ?_ trivial
    rw [hi]
    exact iff_of_false (fun he => Bool.false_ne_true ((c.entry_free op).symm.trans he)) id
  | @lock t p next hi hp hfree =>
    have hl := c.locked_of hp
    exact hs.take hfree hl.2
  | @unlock t p next hi hp =>
    have hl := c.locked_of hp
    refine hs.leave (hi ▸ hl.1) (fun he => Bool.false_ne_true (hl.2.symm.trans he)) trivial
  | @access t p next f d hi hp hf =>
    have hl := c.locked_of hp
    have hm : Exclusive c (s.move t (.at next)) := by
      refine hs.move ?_ trivial
      rw [hi]
      exact iff_of_true (hl.2 _ _ _ hf) hl.1
    exact ⟨hm.owner, hm.resumes⟩
  | @signal t u p next next' timedout hi hp hu =>
    have hl : c.holds next = c.holds p := c.locked_of hp
    have hw : Exclusive c (s.move u (.waking next')) := by
      refine hs.move ?_ ?_
      · rw [hu]
        exact Iff.rfl
      · exact (hs.resumes_of hu).1
    refine hw.move ?_ trivial
    have htu : t ≠ u := by
      rintro rfl
      rw [hi] at hu
      cases hu
    rw [s.move_place_ne _ htu, hi]
    show c.holds next = true ↔ c.holds p = true
    rw [hl]
  | @signalNone t p next hi hp hnone =>
    have hl : c.holds next = c.holds p := c.locked_of hp
    refine hs.move ?_ trivial
    rw [hi]
    show c.holds next = true ↔ c.holds p = true
    rw [hl]
  | @wait t p next hi hp =>
    have hl := c.locked_of hp
    exact hs.leave (hi ▸ hl.1) id ⟨hl.2, nofun⟩
  | @timedwait t p next timedout hi hp =>
    have hl := c.locked_of hp
    refine hs.leave (hi ▸ hl.1) id ⟨hl.2.1, fun q hq => ?_⟩
    obtain rfl := Option.some.inj hq
    exact hl.2.2
  | @spurious t next timedout hi =>
    have hr := hs.resumes_of hi
    refine hs.move ?_ hr.1
    rw [hi]
    exact Iff.rfl
  | @timeout t next timedout hi =>
    have hr := hs.resumes_of hi
    refine hs.move ?_ (hr.2 timedout rfl)
    rw [hi]
    exact Iff.rfl
  | @reacquire t next hi hfree =>
    have hr := hs.resumes_of hi
    exact hs.take hfree hr
  | @ret t p r hi hp =>
    have hl := c.locked_of hp
    refine hs.move ?_ trivial
    rw [hi]
    exact iff_of_false id fun he => Bool.false_ne_true (hl.symm.trans he)

/-! ## Runs that are chosen step by step -/

/-- What happens next: a call, a step of a thread, a signal with the sleeper it wakes, or the end of
a sleep without one. -/
inductive Choice (T O : Type) where
  | call (t : T) (op : O)
  | go (t : T)
  | wake (t u : T)
  | rouse (t : T)
  | expire (t : T)

def Place.sleeps : Place P → Bool
  | .asleep _ _ => true
  | _ => false

/-- The statement at a position, executed by a thread that wakes nobody. -/
def Instr.exec (s : State T σ P) (t : T) (alone : Bool) : Instr σ P ρ → Option (State T σ P)
  | lock next => if s.owner.isNone then some { s.move t (.at next) with owner := some t } else none
  | unlock next => some { s.move t (.at next) with owner := none }
  | access f => (f s.data).map fun r => { s.move t (.at r.2) with data := r.1 }
  | signal next => if alone then some (s.move t (.at next)) else none
  | wait next => some { s.move t (.asleep next none) with owner := none }
  | timedwait next timedout =>
    some { s.move t (.asleep next (some timedout)) with owner := none }
  | ret _ => some (s.move t .idle)

/-- What is seen of a statement. -/
def Instr.label (t : T) : Instr σ P ρ → Label T O ρ
  | ret r => .seen (.ret t r)
  | _ => .tau t

/-- A step that is chosen, if it is possible. -/
def Code.next [Fintype T] (c : Code O σ P ρ) (s : State T σ P) :
    Choice T O → Option (Label T O ρ × State T σ P)
  | .call t op =>
    match s.place t with
    | .idle => some (.seen (.call t op), s.move t (.at (c.entry op)))
    | _ => none
  | .go t =>
    match s.place t with
    | .at p => ((c.code p).exec s t (decide (∀ u, (s.place u).sleeps = false))).map
        fun s' => ((c.code p).label t, s')
    | .waking next =>
      if s.owner.isNone then some (.tau t, { s.move t (.at next) with owner := some t }) else none
    | _ => none
  | .wake t u =>
    match s.place t, s.place u with
    | .at p, .asleep next' _ =>
      match c.code p with
      | .signal next => some (.tau t, (s.move u (.waking next')).move t (.at next))
      | _ => none
    | _, _ => none
  | .rouse t =>
    match s.place t with
    | .asleep next _ => some (.tau t, s.move t (.waking next))
    | _ => none
  | .expire t =>
    match s.place t with
    | .asleep _ (some timedout) => some (.tau t, s.move t (.waking timedout))
    | _ => none

theorem step_of_exec {p : P} {alone : Bool} (hi : s.place t = .at p)
    (halone : alone = true → ∀ u, (s.place u).sleeps = false)
    (h : (c.code p).exec s t alone = some s') : Step c s ((c.code p).label t) s' := by
  cases hp : c.code p with
  | lock next =>
    rw [hp] at h
    obtain ⟨hfree, h⟩ := Option.ite_none_right_eq_some.mp h
    obtain rfl := Option.some.inj h
    exact .lock hi hp (Option.isNone_iff_eq_none.mp hfree)
  | unlock next =>
    rw [hp] at h
    obtain rfl := Option.some.inj h
    exact .unlock hi hp
  | access f =>
    rw [hp] at h
    obtain ⟨⟨d, next⟩, hf, rfl⟩ := Option.map_eq_some_iff.mp h
    exact .access hi hp hf
  | signal next =>
    rw [hp] at h
    obtain ⟨ha, h⟩ := Option.ite_none_right_eq_some.mp h
    obtain rfl := Option.some.inj h
    refine .signalNone hi hp fun u next' timedout hu => ?_
    have hsleeps := halone ha u
    rw [hu] at hsleeps
    cases hsleeps
  | wait next =>
    rw [hp] at h
    obtain rfl := Option.some.inj h
    exact .wait hi hp
  | timedwait next timedout =>
    rw [hp] at h
    obtain rfl := Option.some.inj h
    exact .timedwait hi hp
  | ret r =>
    rw [hp] at h
    obtain rfl := Option.some.inj h
    exact .ret hi hp

theorem step_of_next [Fintype T] {a : Choice T O} (h : c.next s a = some (l, s')) :
    Step c s l s' := by
  cases a with
  | call t op =>
    simp only [Code.next] at h
    split at h
    · rename_i hi
      cases h
      exact .call op hi
    · cases h
  | go t =>
    simp only [Code.next] at h
    split at h
    · rename_i p hi
      obtain ⟨s₁, hs, he⟩ := Option.map_eq_some_iff.mp h
      cases he
      exact step_of_exec hi of_decide_eq_true hs
    · rename_i next hi
      obtain ⟨hfree, h⟩ := Option.ite_none_right_eq_some.mp h
      cases h
      exact .reacquire hi (Option.isNone_iff_eq_none.mp hfree)
    · cases h
  | wake t u =>
    simp only [Code.next] at h
    split at h
    · rename_i p next' timedout hi hu
      split at h
      · rename_i next hp
        cases h
        exact .signal hi hp hu
      · cases h
    · cases h
  | rouse t =>
    simp only [Code.next] at h
    split at h
    · rename_i next timedout hi
      cases h
      exact .spurious hi
    · cases h
  | expire t =>
    simp only [Code.next] at h
    split at h
    · rename_i next timedout hi
      cases h
      exact .timeout hi
    · cases h

/-- All steps of a list of choices. -/
def Code.play [Fintype T] (c : Code O σ P ρ) (s : State T σ P) :
    List (Choice T O) → Option (List (Label T O ρ) × State T σ P)
  | [] => some ([], s)
  | a :: as =>
    match c.next s a with
    | none => none
    | some (l, s) => (c.play s as).map fun r => (l :: r.1, r.2)

theorem runs_of_play [Fintype T] {as : List (Choice T O)} (h : c.play s as = some (ls, s')) :
    Runs (Step c) s ls s' := by
  induction as generalizing s ls with
  | nil =>
    cases h
    exact .start
  | cons a as ih =>
    simp only [Code.play] at h
    split at h
    · cases h
    · rename_i l s₁ hn
      obtain ⟨⟨ls', s₂⟩, hplay, he⟩ := Option.map_eq_some_iff.mp h
      cases he
      exact .cons (step_of_next hn) (ih hplay)

/-! ## Objects whose operations are single steps -/

/-- What an operation makes of the data, and its answer. -/
abbrev Object (O σ ρ : Type) := O → σ → σ → ρ → Prop

/-- How far a call has got. -/
inductive Phase (O ρ : Type) where
  | none
  | called (op : O)
  | done (r : ρ)
  deriving DecidableEq

structure Atomic (T O σ ρ : Type) where
  data : σ
  phase : T → Phase O ρ

namespace Atomic

/-- A call and its answer are seen, the operation itself is not. -/
inductive Label (T O ρ : Type) where
  | seen (e : Event T O ρ)
  | act (t : T) (op : O) (r : ρ)

def Label.event : Label T O ρ → Option (Event T O ρ)
  | seen e => some e
  | act _ _ _ => none

def start (d : σ) : Atomic T O σ ρ := ⟨d, fun _ => .none⟩

inductive Step (obj : Object O σ ρ) : Atomic T O σ ρ → Label T O ρ → Atomic T O σ ρ → Prop
  | call {s : Atomic T O σ ρ} {t : T} (op : O) (h : s.phase t = .none) :
      Step obj s (.seen (.call t op)) ⟨s.data, Function.update s.phase t (.called op)⟩
  | act {s : Atomic T O σ ρ} {t : T} {op : O} {r : ρ} {d : σ} (h : s.phase t = .called op)
      (hobj : obj op s.data d r) : Step obj s (.act t op r) ⟨d, Function.update s.phase t (.done r)⟩
  | ret {s : Atomic T O σ ρ} {t : T} {r : ρ} (h : s.phase t = .done r) :
      Step obj s (.seen (.ret t r)) ⟨s.data, Function.update s.phase t .none⟩

end Atomic

/-! ## Linearization -/

/-- The operation takes effect between two positions of a procedure. -/
def Effect (phase : P → Phase O ρ) (obj : Object O σ ρ) (p next : P) (d d' : σ) : Prop :=
  d' = d ∧ phase next = phase p ∨
    ∃ op r, phase p = .called op ∧ phase next = .done r ∧ obj op d d' r

/-- The statement keeps the phase, unless it is where the operation takes effect. -/
def Instr.Linear (phase : P → Phase O ρ) (obj : Object O σ ρ) (p : P) : Instr σ P ρ → Prop
  | lock next => phase next = phase p
  | unlock next => phase next = phase p
  | access f => ∀ d d' next, f d = some (d', next) → Effect phase obj p next d d'
  | signal next => phase next = phase p
  | wait next => phase next = phase p
  | timedwait next timedout =>
    phase next = phase p ∧ ∀ d, Effect phase obj p timedout d d
  | ret r => phase p = .done r

/-- How far a call has got at each position of its procedure. -/
structure Linear (c : Code O σ P ρ) (obj : Object O σ ρ) where
  phase : P → Phase O ρ
  entry : ∀ op, phase (c.entry op) = .called op
  linear : ∀ p, (c.code p).Linear phase obj p

namespace Linear

variable {obj : Object O σ ρ} (lin : Linear c obj)

def phaseAt : Place P → Phase O ρ
  | .idle => .none
  | .at p => lin.phase p
  | .asleep next _ => lin.phase next
  | .waking next => lin.phase next

/-- A monitor as an object. -/
def abs (s : State T σ P) : Atomic T O σ ρ := ⟨s.data, fun t => lin.phaseAt (s.place t)⟩

/-- A timed wait that is over may be the effect of its operation. -/
def Rests : Place P → Prop
  | .asleep next (some timedout) => ∀ d, Effect lin.phase obj next timedout d d
  | _ => True

def AllRest (s : State T σ P) : Prop := ∀ t, lin.Rests (s.place t)

theorem abs_move (s : State T σ P) (t : T) (x : Place P) :
    lin.abs (s.move t x) = ⟨s.data, Function.update (lin.abs s).phase t (lin.phaseAt x)⟩ := by
  show (⟨s.data, fun u => lin.phaseAt (Function.update s.place t x u)⟩ : Atomic T O σ ρ) = _
  congr 1
  funext u
  by_cases hu : u = t
  · subst hu
    rw [Function.update_self, Function.update_self]
  · rw [Function.update_of_ne hu, Function.update_of_ne hu]
    rfl

/-- A thread moves on within a phase, with the mutex or without. -/
theorem kept {x y : Place P} (o : Option T) (hy : s.place t = y)
    (h : lin.phaseAt x = lin.phaseAt y) : lin.abs { s.move t x with owner := o } = lin.abs s := by
  show lin.abs (s.move t x) = lin.abs s
  rw [abs_move, h, ← hy]
  show (⟨s.data, Function.update (lin.abs s).phase t ((lin.abs s).phase t)⟩ : Atomic T O σ ρ) = _
  rw [Function.update_eq_self]
  rfl

theorem AllRest.move (h : lin.AllRest s) {x : Place P} (hx : lin.Rests x) :
    lin.AllRest (s.move t x) := by
  intro u
  by_cases hu : u = t
  · subst hu
    rw [s.move_place]
    exact hx
  · rw [s.move_place_ne x hu]
    exact h u

/-- What a step of the monitor is for the object: nothing, or one step that is seen alike. -/
def Simulated (s : State T σ P) (l : Label T O ρ) (s' : State T σ P) : Prop :=
  lin.abs s' = lin.abs s ∧ l.event = none ∨
    ∃ a, Atomic.Step obj (lin.abs s) a (lin.abs s') ∧ a.event = l.event

/-- A thread goes from one position to another, perhaps with the effect of its operation. -/
theorem simulated_effect {p next : P} {d : σ} {x : Place P}
    (hs : lin.phaseAt (s.place t) = lin.phase p) (hx : lin.phaseAt x = lin.phase next)
    (he : Effect lin.phase obj p next s.data d) :
    lin.Simulated s (.tau t) { s.move t x with data := d } := by
  have habs : lin.abs { s.move t x with data := d } =
      ⟨d, Function.update (lin.abs s).phase t (lin.phaseAt x)⟩ :=
    congrArg (fun a : Atomic T O σ ρ => (⟨d, a.phase⟩ : Atomic T O σ ρ)) (lin.abs_move s t x)
  rcases he with ⟨rfl, hkeep⟩ | ⟨op, r, hcalled, hdone, hobj⟩
  · exact .inl ⟨lin.kept s.owner rfl (by rw [hx, hs, hkeep]), rfl⟩
  · refine .inr ⟨.act t op r, ?_, rfl⟩
    rw [habs, hx, hdone]
    exact .act (hs.trans hcalled) hobj

/-- **Every step of the monitor is nothing or a step of the object.** -/
theorem simulated (h : Step c s l s') (hr : lin.AllRest s) : lin.Simulated s l s' ∧ lin.AllRest s' := by
  cases h with
  | call op hi =>
    refine ⟨.inr ⟨.seen (.call _ op), ?_, rfl⟩, hr.move lin trivial⟩
    rw [abs_move]
    show Atomic.Step obj (lin.abs s) _ ⟨s.data, Function.update _ _ (lin.phase (c.entry op))⟩
    rw [lin.entry]
    exact .call op (congrArg lin.phaseAt hi)
  | @lock t p next hi hp hfree =>
    have hl := lin.linear p
    rw [hp] at hl
    exact ⟨.inl ⟨lin.kept _ hi hl, rfl⟩, hr.move lin trivial⟩
  | @unlock t p next hi hp =>
    have hl := lin.linear p
    rw [hp] at hl
    exact ⟨.inl ⟨lin.kept _ hi hl, rfl⟩, hr.move lin trivial⟩
  | @access t p next f d hi hp hf =>
    have hl := lin.linear p
    rw [hp] at hl
    exact ⟨lin.simulated_effect (congrArg lin.phaseAt hi) rfl (hl _ _ _ hf), hr.move lin trivial⟩
  | @signal t u p next next' timedout hi hp hu =>
    have hl := lin.linear p
    rw [hp] at hl
    have htu : t ≠ u := by
      rintro rfl
      rw [hi] at hu
      cases hu
    have hw : lin.abs (s.move u (.waking next')) = lin.abs s := lin.kept _ hu rfl
    have hrw : lin.AllRest (s.move u (.waking next')) := hr.move lin trivial
    refine ⟨.inl ⟨?_, rfl⟩, hrw.move lin trivial⟩
    have hplace : (s.move u (.waking next')).place t = .at p := by rw [s.move_place_ne _ htu, hi]
    rw [← hw]
    exact lin.kept (x := .at next) s.owner hplace hl
  | @signalNone t p next hi hp hnone =>
    have hl := lin.linear p
    rw [hp] at hl
    exact ⟨.inl ⟨lin.kept _ hi hl, rfl⟩, hr.move lin trivial⟩
  | @wait t p next hi hp =>
    have hl := lin.linear p
    rw [hp] at hl
    exact ⟨.inl ⟨lin.kept _ hi hl, rfl⟩, hr.move lin trivial⟩
  | @timedwait t p next timedout hi hp =>
    have hl := lin.linear p
    rw [hp] at hl
    refine ⟨.inl ⟨lin.kept _ hi hl.1, rfl⟩, hr.move lin fun d => ?_⟩
    have he := hl.2 d
    unfold Effect at he ⊢
    rw [hl.1]
    exact he
  | @spurious t next timedout hi =>
    exact ⟨.inl ⟨lin.kept _ hi rfl, rfl⟩, hr.move lin trivial⟩
  | @timeout t next timedout hi =>
    have he := hr t
    rw [hi] at he
    have hplace : lin.phaseAt (s.place t) = lin.phase next := by
      rw [hi]
      rfl
    exact ⟨lin.simulated_effect hplace rfl (he s.data), hr.move lin trivial⟩
  | @reacquire t next hi hfree =>
    exact ⟨.inl ⟨lin.kept _ hi rfl, rfl⟩, hr.move lin trivial⟩
  | @ret t p r hi hp =>
    have hl := lin.linear p
    rw [hp] at hl
    refine ⟨.inr ⟨.seen (.ret t r), ?_, rfl⟩, hr.move lin trivial⟩
    rw [abs_move]
    refine .ret ?_
    show lin.phaseAt (s.place t) = _
    rw [hi]
    exact hl

/-- **A monitor does what the object does**: every run is one of the object with the same calls
and the same answers. -/
theorem linearizes {d : σ} (h : Runs (Step c) (State.start d) ls s) :
    ∃ as, Runs (Atomic.Step obj) (Atomic.start d) as (lin.abs s) ∧
      as.filterMap Atomic.Label.event = ls.filterMap Label.event := by
  suffices h : lin.AllRest s ∧ ∃ as, Runs (Atomic.Step obj) (Atomic.start d) as (lin.abs s) ∧
      as.filterMap Atomic.Label.event = ls.filterMap Label.event from h.2
  induction h with
  | start => exact ⟨fun _ => trivial, [], .start, rfl⟩
  | @next ls s s' l _ hstep ih =>
    obtain ⟨hr, as, hrun, hsee⟩ := ih
    obtain ⟨hsim, hr'⟩ := lin.simulated hstep hr
    refine ⟨hr', ?_⟩
    rcases hsim with ⟨habs, hl⟩ | ⟨a, ha, hl⟩
    · refine ⟨as, habs ▸ hrun, ?_⟩
      rw [List.filterMap_append, hsee, List.filterMap_cons, hl, List.filterMap_nil,
        List.append_nil]
    · refine ⟨as ++ [a], .next hrun ha, ?_⟩
      rw [List.filterMap_append, List.filterMap_append, hsee, List.filterMap_cons,
        List.filterMap_cons, hl]
      rfl

end Linear

end Monitor
