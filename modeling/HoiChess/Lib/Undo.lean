import HoiChess.Lib.Run

/-!
# Taking moves back

A tree is searched either on copies, where a move is made on a copy of the current state and
taking it back drops the copy, or in place, where a move leaves a record and taking it back uses the
record up.  If the record of a move undoes it wherever the move is admitted, the search in place
sees the same states as the search on copies, and finds its records as they have to be
(`inPlace_agrees`).
-/

namespace Undo

/-- How moves are made and taken back; `Ok` is what taking back asserts. -/
structure Game (S M H : Type) where
  make : S → M → S
  record : S → M → H
  unmake : S → H → S
  Ok : S → H → Prop

inductive Act (M : Type) where
  | make (mov : M)
  | unmake
  deriving DecidableEq

variable {S M H : Type} (g : Game S M H)

/-- The current state, and the states that the moves were made in. -/
def copyStep (s : S × List S) : Act M → S × List S
  | .make mov => (g.make s.1 mov, s.1 :: s.2)
  | .unmake =>
    match s.2 with
    | [] => s
    | t :: ts => (t, ts)

/-- The only state, and the records of the moves made. -/
def placeStep (s : S × List H) : Act M → S × List H
  | .make mov => (g.make s.1 mov, g.record s.1 mov :: s.2)
  | .unmake =>
    match s.2 with
    | [] => s
    | r :: rs => (g.unmake s.1 r, rs)

/-- A move is admitted; taking back always is. -/
def Admits (may : S → M → Prop) (s : S × List S) : Act M → Prop
  | .make mov => may s.1 mov
  | .unmake => True

/-- Taking back finds the state as it asserts. -/
def Asserts (s : S × List H) : Act M → Prop
  | .make _ => True
  | .unmake => ∀ r ∈ s.2.head?, g.Ok s.1 r

/-- The records lead back through the states that the moves were made in. -/
def Undoes : S → List S → List H → Prop
  | _, [], [] => True
  | s, t :: ts, r :: rs => g.Ok s r ∧ g.unmake s r = t ∧ Undoes t ts rs
  | _, _, _ => False

variable {g} {P : S → Prop} {may : S → M → Prop}

/-- **A search in place sees what a search on copies sees.** -/
theorem inPlace_agrees (hkeep : ∀ s mov, P s → may s mov → P (g.make s mov))
    (hundo : ∀ s mov, P s → may s mov →
      g.Ok (g.make s mov) (g.record s mov) ∧ g.unmake (g.make s mov) (g.record s mov) = s)
    {s : S} {ts : List S} {rs : List H} {as : List (Act M)} (hs : P s) (hts : ∀ t ∈ ts, P t)
    (hrs : Undoes g s ts rs) (has : Run.Along (copyStep g) (Admits may) (s, ts) as) :
    (Run.run (placeStep g) (s, rs) as).1 = (Run.run (copyStep g) (s, ts) as).1 ∧
      Run.Along (placeStep g) (Asserts g) (s, rs) as := by
  induction as generalizing s ts rs with
  | nil => exact ⟨rfl, trivial⟩
  | cons a as ih =>
    cases a with
    | make mov =>
      obtain ⟨ha, has⟩ := has
      have hrs' : Undoes g (g.make s mov) (s :: ts) (g.record s mov :: rs) :=
        ⟨(hundo s mov hs ha).1, (hundo s mov hs ha).2, hrs⟩
      obtain ⟨heq, hok⟩ := ih (hkeep s mov hs ha) (List.forall_mem_cons.mpr ⟨hs, hts⟩) hrs' has
      exact ⟨heq, trivial, hok⟩
    | unmake =>
      match ts, rs, hrs with
      | [], [], hrs =>
        obtain ⟨heq, hok⟩ := ih hs hts hrs has.2
        exact ⟨heq, nofun, hok⟩
      | t :: ts, r :: rs, hrs =>
        obtain ⟨hr, rfl, hrs⟩ := hrs
        obtain ⟨ht, hts⟩ := List.forall_mem_cons.mp hts
        obtain ⟨heq, hok⟩ := ih ht hts hrs has.2
        refine ⟨heq, fun r' hr' => ?_, hok⟩
        obtain rfl := Option.some.inj hr'
        exact hr

end Undo
