import Mathlib.Logic.Basic

/-!
# Programs with a state, bugs and fuel

An `Exec σ α` runs on a state of type `σ` and ends with a value, stops at a bug it
reports, or runs out of the fuel that bounds its recursion.  `bind_eq_done` takes a
finished run apart; `Settles` is a total-correctness judgement: the run is never out
of fuel, meets a bug only where `ok` fails, and ends as described otherwise.
-/

namespace Exec

/-- How a run ends. -/
inductive Outcome (σ α : Type) where
  | bug
  | outOfFuel
  | done (a : α) (s : σ)

end Exec

def Exec (σ α : Type) := σ → Exec.Outcome σ α

namespace Exec

variable {σ α β : Type}

instance : Monad (Exec σ) where
  pure a := fun s => .done a s
  bind m f := fun s =>
    match m s with
    | .bug => .bug
    | .outOfFuel => .outOfFuel
    | .done a s' => f a s'

def get : Exec σ σ := fun s => .done s s

def modify (f : σ → σ) : Exec σ Unit := fun s => .done () (f s)

def bug : Exec σ α := fun _ => .bug

def outOfFuel : Exec σ α := fun _ => .outOfFuel

section Done

variable {s s' : σ} {a : α} {b : β} {m : Exec σ α} {f : α → Exec σ β}

theorem bind_eq_done : (m >>= f) s = .done b s' ↔ ∃ a s₁, m s = .done a s₁ ∧ f a s₁ = .done b s' := by
  show (match m s with
    | .bug => Outcome.bug
    | .outOfFuel => Outcome.outOfFuel
    | .done a s' => f a s') = _ ↔ _
  cases m s with
  | bug => exact iff_of_false nofun (fun ⟨_, _, h, _⟩ => nomatch h)
  | outOfFuel => exact iff_of_false nofun (fun ⟨_, _, h, _⟩ => nomatch h)
  | done a s₁ =>
    constructor
    · exact fun h => ⟨a, s₁, rfl, h⟩
    · rintro ⟨_, _, h, hf⟩
      cases h
      exact hf

/-- A program that ends hands over to the next one. -/
theorem bind_of_done (h : m s = .done a s') : (m >>= f) s = f a s' := by
  show (match m s with
    | .bug => Outcome.bug
    | .outOfFuel => Outcome.outOfFuel
    | .done a s' => f a s') = _
  rw [h]

theorem bind_of_bug (h : m s = .bug) : (m >>= f) s = .bug := by
  show (match m s with
    | .bug => Outcome.bug
    | .outOfFuel => Outcome.outOfFuel
    | .done a s' => f a s') = _
  rw [h]

theorem bind_of_outOfFuel (h : m s = .outOfFuel) : (m >>= f) s = .outOfFuel := by
  show (match m s with
    | .bug => Outcome.bug
    | .outOfFuel => Outcome.outOfFuel
    | .done a s' => f a s') = _
  rw [h]

theorem pure_eq_done {a' : α} : (pure a : Exec σ α) s = .done a' s' ↔ a = a' ∧ s = s' := by
  show Outcome.done a s = _ ↔ _
  rw [Outcome.done.injEq]

theorem get_eq_done {t : σ} : get s = .done t s' ↔ s = t ∧ s = s' := by
  rw [get, Outcome.done.injEq]

theorem modify_eq_done {g : σ → σ} {u : Unit} : modify g s = .done u s' ↔ g s = s' := by
  rw [modify, Outcome.done.injEq]
  exact and_iff_right rfl

theorem bug_ne_done : (bug : Exec σ α) s ≠ .done a s' := by
  intro h
  cases h

theorem outOfFuel_ne_done : (outOfFuel : Exec σ α) s ≠ .done a s' := by
  intro h
  cases h

end Done

/-! ## Total correctness -/

/-- The run ends, in a bug only if `ok` fails, and otherwise as `Q` says. -/
def Settles (ok : Prop) (m : Exec σ α) (s : σ) (Q : α → σ → Prop) : Prop :=
  match m s with
  | .bug => ¬ ok
  | .outOfFuel => False
  | .done a s' => Q a s'

section Settles

variable {ok : Prop} {s : σ} {m : Exec σ α} {f : α → Exec σ β} {P : α → σ → Prop} {Q : β → σ → Prop}

theorem Settles.bind (hm : Settles ok m s P) (hf : ∀ a s', P a s' → Settles ok (f a) s' Q) :
    Settles ok (m >>= f) s Q := by
  show (match (match m s with
    | .bug => Outcome.bug
    | .outOfFuel => Outcome.outOfFuel
    | .done a s' => f a s') with
    | .bug => ¬ ok
    | .outOfFuel => False
    | .done a s' => Q a s')
  unfold Settles at hm hf
  cases hs : m s with
  | bug => simpa only [hs] using hm
  | outOfFuel => simp only [hs] at hm
  | done a s' =>
    simp only [hs] at hm
    exact hf a s' hm

theorem Settles.modify {g : σ → σ} {P : Unit → σ → Prop} (h : P () (g s)) :
    Settles ok (Exec.modify g) s P := h

theorem Settles.get {P : σ → σ → Prop} (h : P s s) : Settles ok Exec.get s P := h

theorem Settles.bug (h : ¬ ok) : Settles ok (Exec.bug : Exec σ α) s P := h

theorem Settles.mono {P' : α → σ → Prop} (h : Settles ok m s P) (hP : ∀ a s', P a s' → P' a s') :
    Settles ok m s P' := by
  unfold Settles at h ⊢
  cases hs : m s with
  | bug => simpa only [hs] using h
  | outOfFuel => simp only [hs] at h
  | done a s' =>
    simp only [hs] at h
    exact hP a s' h

theorem Settles.not_outOfFuel (h : Settles ok m s P) : m s ≠ .outOfFuel := by
  intro hs
  unfold Settles at h
  simp only [hs] at h

/-- Where no bug is possible, the run ends with a value. -/
theorem Settles.of_done {a : α} {s' : σ} (h : Settles ok m s P) (hm : m s = .done a s') : P a s' := by
  unfold Settles at h
  rw [hm] at h
  exact h

theorem Settles.exists_done (h : Settles ok m s P) (hok : ok) : ∃ a s', m s = .done a s' ∧ P a s' := by
  unfold Settles at h
  cases hs : m s with
  | bug =>
    simp only [hs] at h
    exact absurd hok h
  | outOfFuel => simp only [hs] at h
  | done a s' =>
    simp only [hs] at h
    exact ⟨a, s', rfl, h⟩

end Settles

/-! ## Refinement of an abstract relation -/

/-- What is observed of a state: a part of it, a log that only grows, and an invariant. -/
structure Observation (σ ν ε : Type) where
  view : σ → ν
  log : σ → List ε
  inv : σ → Prop

/-- Every finished run keeps the invariant and is a step of `R`: from the view before, with
what was added to the log, to the view after and the result. -/
def Refines {ν ε : Type} (o : Observation σ ν ε) (m : Exec σ α) (R : ν → List ε → ν → α → Prop) :
    Prop :=
  ∀ s a s', m s = .done a s' → o.inv s →
    o.inv s' ∧ ∃ es, o.log s' = o.log s ++ es ∧ R (o.view s) es (o.view s') a

section Refines

variable {ν ε : Type} {o : Observation σ ν ε} {m : Exec σ α} {f : α → Exec σ β}
  {R : ν → List ε → ν → α → Prop} {S : α → ν → List ε → ν → β → Prop}

/-- One relation after another. -/
def Seq (R : ν → List ε → ν → α → Prop) (S : α → ν → List ε → ν → β → Prop) :
    ν → List ε → ν → β → Prop :=
  fun v es v' b => ∃ a v₁ es₁ es₂, es = es₁ ++ es₂ ∧ R v es₁ v₁ a ∧ S a v₁ es₂ v' b

/-- The second program only has to be considered for what the first can return. -/
theorem Refines.bind_of (hm : Refines o m R)
    (hf : ∀ a, (∃ v es v', R v es v' a) → Refines o (f a) (S a)) :
    Refines o (m >>= f) (Seq R S) := by
  intro s b s' h hinv
  obtain ⟨a, s₁, h₁, h₂⟩ := bind_eq_done.mp h
  obtain ⟨hinv₁, es₁, hlog₁, hR⟩ := hm s a s₁ h₁ hinv
  obtain ⟨hinv', es₂, hlog₂, hS⟩ := hf a ⟨_, _, _, hR⟩ s₁ b s' h₂ hinv₁
  refine ⟨hinv', es₁ ++ es₂, ?_, a, o.view s₁, es₁, es₂, rfl, hR, hS⟩
  rw [hlog₂, hlog₁, List.append_assoc]

theorem Refines.bind (hm : Refines o m R) (hf : ∀ a, Refines o (f a) (S a)) :
    Refines o (m >>= f) (Seq R S) := hm.bind_of fun a _ => hf a

theorem Refines.mono {R' : ν → List ε → ν → α → Prop} (h : Refines o m R)
    (hR : ∀ v es v' a, R v es v' a → R' v es v' a) : Refines o m R' := by
  intro s a s' hm hinv
  obtain ⟨hinv', es, hlog, hr⟩ := h s a s' hm hinv
  exact ⟨hinv', es, hlog, hR _ _ _ _ hr⟩

theorem Refines.pure (a : α) : Refines o (Pure.pure a) (fun v es v' b => v' = v ∧ es = [] ∧ b = a) := by
  intro s b s' h hinv
  obtain ⟨rfl, rfl⟩ := pure_eq_done.mp h
  exact ⟨hinv, [], (List.append_nil _).symm, rfl, rfl, rfl⟩

theorem Refines.bug : Refines o (Exec.bug : Exec σ α) R := fun _ _ _ h _ => absurd h bug_ne_done

theorem Refines.outOfFuel : Refines o (Exec.outOfFuel : Exec σ α) R :=
  fun _ _ _ h _ => absurd h outOfFuel_ne_done

theorem Refines.ite {c : Prop} [Decidable c] {m' : Exec σ α} (h : c → Refines o m R)
    (h' : ¬ c → Refines o m' R) : Refines o (if c then m else m') R := by
  split
  · exact h ‹_›
  · exact h' ‹_›

/-- A change of the state that neither the view nor the log shows. -/
theorem Refines.modify {g : σ → σ} (hinv : ∀ s, o.inv s → o.inv (g s))
    (hview : ∀ s, o.view (g s) = o.view s) (hlog : ∀ s, o.log (g s) = o.log s) :
    Refines o (Exec.modify g) (fun v es v' _ => v' = v ∧ es = []) := by
  intro s a s' h hi
  obtain rfl := modify_eq_done.mp h
  exact ⟨hinv s hi, [], by rw [hlog, List.append_nil], hview s, rfl⟩

end Refines

end Exec
