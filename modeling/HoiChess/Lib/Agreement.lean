import HoiChess.Lib.Exec

/-!
# Programs that do the same

`Same` compares two versions of a program, such as one with tests and one with other tests,
from the states that satisfy an invariant: they end alike, the invariant holds again, and their
common result is as described.  What the first part of a program returns may be relied on in
the rest.
-/

namespace Exec

variable {σ α β : Type}

/-- The run goes on only if `c` holds. -/
def require (c : Bool) : Exec σ Unit := if c then pure () else bug

/-- Both programs do the same, and what they return is as `Q` says. -/
def Same (inv : σ → Prop) (m m' : Exec σ α) (Q : α → Prop) : Prop :=
  ∀ s, inv s → m s = m' s ∧ ∀ a s', m s = .done a s' → inv s' ∧ Q a

section Same

variable {inv : σ → Prop} {m m' : Exec σ α} {f f' : α → Exec σ β} {P : α → Prop} {Q : β → Prop}

theorem Same.bind (hm : Same inv m m' P) (hf : ∀ a, P a → Same inv (f a) (f' a) Q) :
    Same inv (m >>= f) (m' >>= f') Q := by
  intro s hs
  obtain ⟨heq, hdone⟩ := hm s hs
  constructor
  · cases hrun : m s with
    | bug => rw [bind_of_bug hrun, bind_of_bug (heq.symm.trans hrun)]
    | outOfFuel => rw [bind_of_outOfFuel hrun, bind_of_outOfFuel (heq.symm.trans hrun)]
    | done a s' =>
      obtain ⟨hs', ha⟩ := hdone a s' hrun
      rw [bind_of_done hrun, bind_of_done (heq.symm.trans hrun)]
      exact (hf a ha s' hs').1
  · intro b s' hrun
    obtain ⟨a, s₁, h₁, h₂⟩ := bind_eq_done.mp hrun
    obtain ⟨hs₁, ha⟩ := hdone a s₁ h₁
    exact (hf a ha s₁ hs₁).2 b s' h₂

theorem Same.pure {a : α} (h : P a) : Same inv (Pure.pure a) (Pure.pure a) P := by
  refine fun s hs => ⟨rfl, fun b s' hrun => ?_⟩
  obtain ⟨rfl, rfl⟩ := pure_eq_done.mp hrun
  exact ⟨hs, h⟩

theorem Same.ite {c : Prop} [Decidable c] {n n' : Exec σ α} (h : c → Same inv m m' P)
    (h' : ¬ c → Same inv n n' P) : Same inv (if c then m else n) (if c then m' else n') P := by
  by_cases hc : c
  · rw [if_pos hc, if_pos hc]
    exact h hc
  · rw [if_neg hc, if_neg hc]
    exact h' hc

theorem Same.bug : Same inv (Exec.bug : Exec σ α) Exec.bug P :=
  fun _ _ => ⟨rfl, fun _ _ h => absurd h bug_ne_done⟩

theorem Same.outOfFuel : Same inv (Exec.outOfFuel : Exec σ α) Exec.outOfFuel P :=
  fun _ _ => ⟨rfl, fun _ _ h => absurd h outOfFuel_ne_done⟩

/-- The state that is read satisfies the invariant. -/
theorem Same.get : Same inv (Exec.get : Exec σ σ) Exec.get inv := by
  refine fun s hs => ⟨rfl, fun b s' hrun => ?_⟩
  obtain ⟨rfl, rfl⟩ := get_eq_done.mp hrun
  exact ⟨hs, hs⟩

theorem Same.modify {g : σ → σ} (h : ∀ s, inv s → inv (g s)) :
    Same inv (Exec.modify g) (Exec.modify g) (fun _ => True) := by
  refine fun s hs => ⟨rfl, fun _ s' hrun => ?_⟩
  obtain rfl := modify_eq_done.mp hrun
  exact ⟨h s hs, trivial⟩

theorem Same.modify_bind {g : σ → σ} {k k' : Unit → Exec σ β} (hg : ∀ s, inv s → inv (g s))
    (h : Same inv (k ()) (k' ()) Q) : Same inv (Exec.modify g >>= k) (Exec.modify g >>= k') Q :=
  (Same.modify hg).bind fun _ _ => h

/-- **Two tests that come out alike**: what follows may rely on both. -/
theorem Same.require_bind {c c' : Bool} {g g' : Unit → Exec σ β} (hc : c = c')
    (h : c = true → Same inv (g ()) (g' ()) Q) :
    Same inv (require c >>= g) (require c' >>= g') Q := by
  subst hc
  cases c with
  | true => exact h rfl
  | false => exact Same.bug

end Same

/-- A test that is never failed. -/
theorem require_true_bind (f : Unit → Exec σ β) : (require true >>= f) = f () := rfl

theorem bind_pure_self (m : Exec σ α) : (m >>= fun a => Pure.pure a) = m := by
  funext s
  cases hrun : m s with
  | bug => exact bind_of_bug hrun
  | outOfFuel => exact bind_of_outOfFuel hrun
  | done a s' => exact bind_of_done hrun

end Exec
