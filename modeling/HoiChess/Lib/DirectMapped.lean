import Mathlib.Data.List.Basic
import Mathlib.Data.List.Induction
import Mathlib.Logic.Function.Basic

/-!
# Direct-mapped caches

A table with one entry per slot, where `slot` says which one a key uses.  A use of the cache
answers with the entry of its key, or else computes the value and overwrites the slot.  All
answers of a list of uses are the computed values exactly if whenever the last earlier use
of a slot was for the same key, it was for the same value (`answers_eq_iff`).
-/

namespace DirectMapped

variable {κ σ β : Type} [DecidableEq κ] [DecidableEq σ]

/-- What the slots hold. -/
abbrev Table (κ σ β : Type) := σ → Option (κ × β)

variable (slot : κ → σ)

def lookup (t : Table κ σ β) (k : κ) : Option β :=
  match t (slot k) with
  | none => none
  | some (k', v) => if k' = k then some v else none

/-- One use of the cache for key `k`, whose computed value is `v`. -/
def use (t : Table κ σ β) (a : κ × β) : β × Table κ σ β :=
  match lookup slot t a.1 with
  | some v => (v, t)
  | none => (a.2, Function.update t (slot a.1) (some a))

/-- The answers of a list of uses, and the table after it. -/
def answers (t : Table κ σ β) : List (κ × β) → List β
  | [] => []
  | a :: l => (use slot t a).1 :: answers (use slot t a).2 l

def after (t : Table κ σ β) (l : List (κ × β)) : Table κ σ β := l.foldl (fun t a => (use slot t a).2) t

/-- The last use of a slot. -/
def lastUse (l : List (κ × β)) (s : σ) : Option (κ × β) := l.reverse.find? (fun a => slot a.1 = s)

/-- A key used again directly after itself, as its slot sees it, has the same value again. -/
def Settled (l : List (κ × β)) : Prop :=
  ∀ pre a post, l = pre ++ a :: post → ∀ v, lastUse slot pre (slot a.1) = some (a.1, v) → v = a.2

variable {slot}

theorem answers_append (t : Table κ σ β) (l l' : List (κ × β)) :
    answers slot t (l ++ l') = answers slot t l ++ answers slot (after slot t l) l' := by
  induction l generalizing t with
  | nil => rfl
  | cons a l ih => simp [answers, after, ih]

theorem length_answers (t : Table κ σ β) (l : List (κ × β)) :
    (answers slot t l).length = l.length := by
  induction l generalizing t with
  | nil => rfl
  | cons a l ih => simp [answers, ih]

theorem use_hit {t : Table κ σ β} {a : κ × β} {v : β} (h : t (slot a.1) = some (a.1, v)) :
    use slot t a = (v, t) := by
  unfold use lookup
  simp [h]

theorem use_miss {t : Table κ σ β} {a : κ × β} (h : ∀ v, t (slot a.1) ≠ some (a.1, v)) :
    use slot t a = (a.2, Function.update t (slot a.1) (some a)) := by
  unfold use lookup
  cases ht : t (slot a.1) with
  | none => rfl
  | some c =>
    have hk : c.1 ≠ a.1 := fun hk => h c.2 (by rw [ht, ← hk])
    simp [hk]

omit [DecidableEq κ] in
theorem lastUse_append (l : List (κ × β)) (a : κ × β) (s : σ) :
    lastUse slot (l ++ [a]) s = if slot a.1 = s then some a else lastUse slot l s := by
  unfold lastUse
  rw [List.reverse_append, List.reverse_singleton, List.singleton_append, List.find?_cons]
  by_cases h : slot a.1 = s <;> simp [h]

omit [DecidableEq κ] in
theorem settled_append (l : List (κ × β)) (a : κ × β) :
    Settled slot (l ++ [a]) ↔
      Settled slot l ∧ ∀ v, lastUse slot l (slot a.1) = some (a.1, v) → v = a.2 := by
  constructor
  · refine fun h => ⟨fun pre c post hl => h pre c (post ++ [a]) (by rw [hl]; simp), ?_⟩
    exact h l a [] rfl
  · rintro ⟨hl, ha⟩ pre c post heq
    rcases List.eq_nil_or_concat' post with rfl | ⟨post, d, rfl⟩
    · obtain ⟨rfl, hc⟩ := List.append_inj' heq rfl
      cases hc
      exact ha
    · rw [← List.cons_append, ← List.append_assoc] at heq
      obtain ⟨heq, _⟩ := List.append_inj' heq rfl
      exact hl pre c post heq

/-- **While all answers are right, each slot holds its last use**, and they are right exactly
as long as that use was for the same value whenever it was for the same key. -/
theorem answers_spec (l : List (κ × β)) :
    (answers slot (fun _ => none) l = l.map Prod.snd ↔ Settled slot l) ∧
      (Settled slot l → after slot (fun _ => none) l = lastUse slot l) := by
  induction l using List.reverseRecOn with
  | nil => exact ⟨iff_of_true rfl fun pre a post h => by simp at h, fun _ => rfl⟩
  | append_singleton l a ih =>
    have hlist : answers slot (fun _ => none) (l ++ [a]) = (l ++ [a]).map Prod.snd ↔
        answers slot (fun _ => none) l = l.map Prod.snd ∧
          (use slot (after slot (fun _ => none) l) a).1 = a.2 := by
      rw [answers_append, List.map_append]
      constructor
      · intro h
        obtain ⟨h1, h2⟩ := List.append_inj h (by rw [length_answers, List.length_map])
        exact ⟨h1, (List.cons.inj h2).1⟩
      · rintro ⟨h1, h2⟩
        rw [h1]
        exact congrArg _ (congrArg (fun v => [v]) h2)
    constructor
    · rw [hlist, ih.1, settled_append]
      refine and_congr_right fun hl => ?_
      rw [ih.2 hl]
      by_cases hhit : ∃ v, lastUse slot l (slot a.1) = some (a.1, v)
      · obtain ⟨v, hv⟩ := hhit
        rw [use_hit hv, hv]
        exact ⟨fun h w hw => (Prod.mk.inj (Option.some.inj hw)).2.symm.trans h, fun h => h v rfl⟩
      · rw [use_miss (not_exists.mp hhit)]
        exact iff_of_true rfl fun v hv => absurd ⟨v, hv⟩ hhit
    · intro h
      obtain ⟨hl, ha⟩ := (settled_append l a).mp h
      funext s
      rw [lastUse_append, after, List.foldl_append, List.foldl_cons, List.foldl_nil]
      show (use slot (after slot (fun _ => none) l) a).2 s = _
      rw [ih.2 hl]
      by_cases hhit : ∃ v, lastUse slot l (slot a.1) = some (a.1, v)
      · obtain ⟨v, hv⟩ := hhit
        rw [use_hit hv]
        split
        · rename_i hs
          rw [← hs]
          exact hv.trans (by rw [ha v hv])
        · rfl
      · rw [use_miss (not_exists.mp hhit)]
        show Function.update (lastUse slot l) (slot a.1) (some a) s = _
        rw [Function.update_apply]
        exact if_congr eq_comm rfl rfl

/-- **All answers are right exactly if the uses are settled.** -/
theorem answers_eq_iff (l : List (κ × β)) :
    answers slot (fun _ => none) l = l.map Prod.snd ↔ Settled slot l := (answers_spec l).1

end DirectMapped
