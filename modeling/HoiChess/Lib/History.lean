import HoiChess.Lib.Run

/-!
# Histories with undo and redo

A history keeps the state it started in, one entry for each action played and
one for each action undone.  It is replayable if playing the entries again from
the start visits their states and ends in the current one.  Playing and undoing
keep it so; redoing does if the first undone entry fits the current state, and
dropping the entries only if the history is at its start (`step_replayable_iff`).
Whatever the actions do, redoing what was just undone changes nothing
(`run_undo_redo`).
-/

section Replay

variable {S M : Type} (play : S → M → S) (legal : S → M → Prop)

/-- From `s`, the log shows the states in which its actions are played, all of
them legal, and the last one leads to `t`. -/
def Replays : S → List (S × M) → S → Prop
  | s, [], t => s = t
  | s, e :: es, t => e.1 = s ∧ legal s e.2 ∧ Replays (play s e.2) es t

variable {play legal}

theorem replays_append {s t : S} {es es' : List (S × M)} :
    Replays play legal s (es ++ es') t ↔
      ∃ u, Replays play legal s es u ∧ Replays play legal u es' t := by
  induction es generalizing s with
  | nil => simp [Replays]
  | cons e es ih => simp [Replays, ih, and_assoc]

theorem replays_concat {s t : S} {es : List (S × M)} {e : S × M} :
    Replays play legal s (es ++ [e]) t ↔
      Replays play legal s es e.1 ∧ legal e.1 e.2 ∧ play e.1 e.2 = t := by
  rw [replays_append]
  constructor
  · rintro ⟨u, h, rfl, hl, hp⟩
    exact ⟨h, hl, hp⟩
  · rintro ⟨h, hl, hp⟩
    exact ⟨e.1, h, rfl, hl, hp⟩

end Replay

structure History (S M : Type) where
  start : S
  entries : List (S × M)
  current : S
  /-- Each action with the state it led to, the next one to redo first. -/
  undone : List (M × S)

namespace History

variable {S M : Type}

inductive Op (S M : Type) where
  | play (m : M)
  | undo
  | redo
  /-- Start anew; what was undone stays. -/
  | restart (s : S)
  /-- Drop the entries only. -/
  | drop
  | keep

section Step

variable (play : S → M → S)

def step (h : History S M) : Op S M → History S M
  | .play m => ⟨h.start, h.entries ++ [(h.current, m)], play h.current m, []⟩
  | .undo =>
    match h.entries.getLast? with
    | none => h
    | some e => ⟨h.start, h.entries.dropLast, e.1, (e.2, h.current) :: h.undone⟩
  | .redo =>
    match h.undone with
    | [] => h
    | u :: us => ⟨h.start, h.entries ++ [(h.current, u.1)], u.2, us⟩
  | .restart s => ⟨s, [], s, h.undone⟩
  | .drop => { h with entries := [] }
  | .keep => h

end Step

section Replayable

variable (play : S → M → S) (legal : S → M → Prop)

def Replayable (h : History S M) : Prop := Replays play legal h.start h.entries h.current

/-- Only legal actions are played. -/
def Allowed (h : History S M) : Op S M → Prop
  | .play m => legal h.current m
  | _ => True

/-- What is redone fits the current state; nothing is dropped but at the start. -/
def Fits (h : History S M) : Op S M → Prop
  | .redo => ∀ u ∈ h.undone.head?, legal h.current u.1 ∧ play h.current u.1 = u.2
  | .drop => h.start = h.current
  | _ => True

/-- The undone actions can be redone one after the other. -/
def UndoneFits : S → List (M × S) → Prop
  | _, [] => True
  | s, u :: us => legal s u.1 ∧ play s u.1 = u.2 ∧ UndoneFits u.2 us

/-- The history is replayable and so is what was undone. -/
def Whole (h : History S M) : Prop :=
  h.Replayable play legal ∧ UndoneFits play legal h.current h.undone

/-- Nothing undone is kept over a new start, no entry dropped. -/
def Tidy (h : History S M) : Op S M → Prop
  | .restart _ => h.undone = []
  | .drop => h.entries = []
  | _ => True

variable {play legal} {h : History S M}

/-- **Exactly when a step keeps the history replayable.** -/
theorem step_replayable_iff (hr : h.Replayable play legal) {op : Op S M}
    (ha : h.Allowed legal op) :
    (h.step play op).Replayable play legal ↔ h.Fits play legal op := by
  cases op with
  | play m => exact iff_of_true (replays_concat.mpr ⟨hr, ha, rfl⟩) trivial
  | undo =>
    refine iff_of_true ?_ trivial
    simp only [step]
    cases hl : h.entries.getLast? with
    | none => exact hr
    | some e =>
      obtain ⟨es, he⟩ := List.getLast?_eq_some_iff.mp hl
      have hr' := hr
      rw [Replayable, he, replays_concat] at hr'
      simp only [Replayable, he, List.dropLast_concat]
      exact hr'.1
  | redo =>
    simp only [step, Fits]
    cases hu : h.undone with
    | nil => exact iff_of_true hr (by simp)
    | cons u us =>
      simp only [Replayable, replays_concat, List.head?_cons, Option.mem_some_iff, forall_eq']
      exact and_iff_right hr
  | restart s => exact iff_of_true rfl trivial
  | drop => exact Iff.rfl
  | keep => exact iff_of_true hr trivial

/-- What is redone in a whole history fits. -/
theorem Whole.fits (hw : h.Whole play legal) {op : Op S M} (ht : h.Tidy op) :
    h.Fits play legal op := by
  obtain ⟨hr, hu⟩ := hw
  cases op with
  | redo =>
    intro u hmem
    cases hus : h.undone with
    | nil => rw [hus] at hmem; cases hmem
    | cons v us =>
      rw [hus] at hmem hu
      cases hmem
      exact ⟨hu.1, hu.2.1⟩
  | drop =>
    have hn : h.entries = [] := ht
    rw [Replayable, hn] at hr
    exact hr
  | _ => trivial

/-- **Undoing, redoing and playing keep a history whole.** -/
theorem Whole.step (hw : h.Whole play legal) {op : Op S M} (ha : h.Allowed legal op)
    (ht : h.Tidy op) : (h.step play op).Whole play legal := by
  have hfits := hw.fits ht
  obtain ⟨hr, hu⟩ := hw
  refine ⟨(step_replayable_iff hr ha).mpr hfits, ?_⟩
  cases op with
  | play m => trivial
  | undo =>
    simp only [History.step]
    cases hl : h.entries.getLast? with
    | none => exact hu
    | some e =>
      obtain ⟨es, he⟩ := List.getLast?_eq_some_iff.mp hl
      rw [Replayable, he, replays_concat] at hr
      exact ⟨hr.2.1, hr.2.2, hu⟩
  | redo =>
    simp only [History.step]
    cases hus : h.undone with
    | nil => rw [hus] at hu; simpa [hus] using hu
    | cons u us =>
      rw [hus] at hu
      exact hu.2.2
  | restart s =>
    have hn : h.undone = [] := ht
    simp only [History.step, hn]
    trivial
  | drop => exact hu
  | keep => exact hu

end Replayable

/-! ## Undo, then redo -/

section TakeBack

variable (play : S → M → S) {h : History S M}

theorem step_undo {es : List (S × M)} {e : S × M} (he : h.entries = es ++ [e]) :
    h.step play .undo = ⟨h.start, es, e.1, (e.2, h.current) :: h.undone⟩ := by
  simp [step, he]

/-- An entry shows the state before its action, an undone action the one after it; redoing puts
both back. -/
theorem redo_undo (hne : h.entries ≠ []) : (h.step play .undo).step play .redo = h := by
  obtain ⟨es, e, he⟩ := (List.eq_nil_or_concat' h.entries).resolve_left hne
  rw [step_undo play he]
  simp [step, ← he]

theorem length_entries_undo : (h.step play .undo).entries.length = h.entries.length - 1 := by
  rcases List.eq_nil_or_concat' h.entries with hnil | ⟨es, e, he⟩
  · simp [step, hnil]
  · simp [step_undo play he, he]

/-- **Redoing all that was just undone changes nothing.** -/
theorem run_undo_redo {n : ℕ} (hn : n ≤ h.entries.length) :
    Run.run (step play) h (List.replicate n .undo ++ List.replicate n .redo) = h := by
  induction n generalizing h with
  | zero => rfl
  | succ n ih =>
    have hne : h.entries ≠ [] := List.ne_nil_of_length_pos (by omega)
    have hlen : n ≤ (h.step play .undo).entries.length := by
      rw [length_entries_undo]
      omega
    have hinner := ih hlen
    rw [List.replicate_succ, List.replicate_succ', List.cons_append, ← List.append_assoc]
    simp only [Run.run, List.foldl_cons, List.foldl_append, List.foldl_nil] at hinner ⊢
    rw [hinner]
    exact redo_undo play hne

/-- What can be redone after so many undos: the last actions, in the order they were played. -/
theorem undone_run_undo {n : ℕ} (hn : n ≤ h.entries.length) :
    (Run.run (step play) h (List.replicate n .undo)).undone.map Prod.fst =
      (h.entries.drop (h.entries.length - n)).map Prod.snd ++ h.undone.map Prod.fst := by
  induction n generalizing h with
  | zero => simp [Run.run]
  | succ n ih =>
    have hne : h.entries ≠ [] := List.ne_nil_of_length_pos (by omega)
    obtain ⟨es, e, he⟩ := (List.eq_nil_or_concat' h.entries).resolve_left hne
    have hes : n ≤ es.length := by simpa [he] using hn
    have hstep := step_undo play he
    have hinner := ih (h := h.step play .undo) (by rw [hstep]; exact hes)
    rw [List.replicate_succ]
    simp only [Run.run, List.foldl_cons] at hinner ⊢
    rw [hinner, hstep, he]
    simp [List.drop_append_of_le_length]

/-- Playing appends the actions to those of the entries. -/
theorem entries_run_play (as : List M) (h : History S M) :
    (Run.run (step play) h (as.map .play)).entries.map Prod.snd = h.entries.map Prod.snd ++ as := by
  induction as generalizing h with
  | nil => simp [Run.run]
  | cons a as ih =>
    have hinner := ih (h.step play (.play a))
    simp only [Run.run, List.map_cons, List.foldl_cons] at hinner ⊢
    rw [hinner]
    simp [step]

theorem undone_run_play (as : List M) (hu : h.undone = []) :
    (Run.run (step play) h (as.map .play)).undone = [] := by
  induction as generalizing h with
  | nil => exact hu
  | cons a as ih => exact ih (h := h.step play (.play a)) rfl

end TakeBack

end History
