import Mathlib.Logic.Function.Basic
import Mathlib.Data.List.Basic

/-!
# Open addressing

A table holds an entry or nothing in each slot.  The entry of a key is looked for along
the path of the key, up to the first slot that is free or taken by that key (`probe`); there
a new entry is put as well.  In a table that is filled in this way every entry is where the
probe for its own key ends (`Threaded`), whatever the paths are, so that a probe finds the
entry of a key exactly if the table has one (`Threaded.lookup_eq_some`).
-/

namespace Probing

variable {S K E : Type} [DecidableEq S] [DecidableEq K] (key : E → K)

/-- The slot is free or taken by the key. -/
def Open (tbl : S → Option E) (k : K) (s : S) : Bool := (tbl s).all (fun e => key e = k)

/-- The first slot of the path that is free or taken by the key. -/
def probe (tbl : S → Option E) (k : K) (path : List S) : Option S := path.find? (Open key tbl k)

/-- The entry found by a probe. -/
def lookup (tbl : S → Option E) (k : K) (path : List S) : Option E := (probe key tbl k path).bind tbl

/-- Every entry is where the probe for its key ends. -/
def Threaded (path : K → List S) (tbl : S → Option E) : Prop :=
  ∀ s e, tbl s = some e → probe key tbl (key e) (path (key e)) = some s

variable {key} {tbl : S → Option E} {k : K} {path : K → List S}

omit [DecidableEq S] in
theorem open_of_probe {l : List S} {s : S} (h : probe key tbl k l = some s) :
    tbl s = none ∨ ∃ e, tbl s = some e ∧ key e = k := by
  have hopen : Open key tbl k s = true := List.find?_some h
  unfold Open at hopen
  cases hs : tbl s with
  | none => exact .inl rfl
  | some e =>
    rw [hs] at hopen
    exact .inr ⟨e, rfl, by simpa using hopen⟩

/-- A slot that is closed meanwhile does not change where a probe ends. -/
theorem probe_update {l : List S} {s t : S} {e : E} (h : probe key tbl k l = some t) (hst : t ≠ s)
    (he : key e ≠ k) : probe key (Function.update tbl s (some e)) k l = some t := by
  have hclosed : ∀ u, Open key tbl k u = false → Open key (Function.update tbl s (some e)) k u = false := by
    intro u hu
    unfold Open at *
    rw [Function.update_apply]
    split
    · simpa using he
    · exact hu
  induction l with
  | nil => cases h
  | cons u l ih =>
    unfold probe at *
    rw [List.find?_cons] at *
    cases hu : Open key tbl k u with
    | true =>
      rw [hu] at h
      obtain rfl : u = t := Option.some.inj h
      have hopen : Open key (Function.update tbl s (some e)) k u = true := by
        unfold Open at *
        rwa [Function.update_of_ne hst]
      rw [hopen]
    | false =>
      rw [hu] at h
      rw [hclosed u hu]
      exact ih h

/-- Where an entry is put, the probe for its key ends afterwards, too. -/
theorem probe_update_self {l : List S} {s : S} {e : E} (h : probe key tbl (key e) l = some s) :
    probe key (Function.update tbl s (some e)) (key e) l = some s := by
  induction l with
  | nil => cases h
  | cons u l ih =>
    unfold probe at *
    rw [List.find?_cons] at *
    rcases eq_or_ne u s with rfl | hne
    · have hopen : Open key (Function.update tbl u (some e)) (key e) u = true := by simp [Open]
      rw [hopen]
    · have hsame : Open key (Function.update tbl s (some e)) (key e) u = Open key tbl (key e) u := by
        simp [Open, Function.update_of_ne hne]
      rw [hsame]
      cases hu : Open key tbl (key e) u with
      | true =>
        rw [hu] at h
        exact absurd (Option.some.inj h) hne
      | false =>
        rw [hu] at h
        exact ih h

omit [DecidableEq S] in
theorem threaded_empty : Threaded key path (fun _ : S => (none : Option E)) := by
  intro s e h
  cases h

/-- **Putting an entry keeps the table threaded.** -/
theorem Threaded.put (h : Threaded key path tbl) {s : S} {e : E}
    (hs : probe key tbl (key e) (path (key e)) = some s) :
    Threaded key path (Function.update tbl s (some e)) := by
  intro t e' ht
  rw [Function.update_apply] at ht
  split at ht
  · rename_i hts
    obtain rfl : e = e' := Option.some.inj ht
    rw [hts]
    exact probe_update_self hs
  · rename_i hts
    have hprobe := h t e' ht
    refine probe_update hprobe hts ?_
    intro heq
    rw [← heq, hs] at hprobe
    exact hts (Option.some.inj hprobe).symm

omit [DecidableEq S] in
/-- **A probe finds an entry exactly if the table has one for the key.** -/
theorem Threaded.lookup_eq_some (h : Threaded key path tbl) {e : E} :
    lookup key tbl k (path k) = some e ↔ key e = k ∧ ∃ s, tbl s = some e := by
  unfold lookup
  rw [Option.bind_eq_some_iff]
  constructor
  · rintro ⟨s, hs, he⟩
    rcases open_of_probe hs with hfree | ⟨e', he', hk⟩
    · rw [hfree] at he
      cases he
    · obtain rfl : e' = e := Option.some.inj (he'.symm.trans he)
      exact ⟨hk, s, he⟩
  · rintro ⟨rfl, s, hs⟩
    exact ⟨s, h s e hs, hs⟩

/-- **The entries after a put.** -/
theorem Threaded.lookup_put (h : Threaded key path tbl) {s : S} {e : E}
    (hs : probe key tbl (key e) (path (key e)) = some s) :
    lookup key (Function.update tbl s (some e)) k (path k) =
      if key e = k then some e else lookup key tbl k (path k) := by
  apply Option.ext
  intro e'
  rw [(h.put hs).lookup_eq_some]
  split
  · rename_i hk
    constructor
    · rintro ⟨hk', t, ht⟩
      rw [Function.update_apply] at ht
      split at ht
      · exact ht
      · rename_i hts
        have hprobe := h t e' ht
        rw [hk', ← hk, hs] at hprobe
        exact absurd (Option.some.inj hprobe).symm hts
    · intro he
      obtain rfl : e = e' := Option.some.inj he
      exact ⟨hk, s, Function.update_self ..⟩
  · rename_i hk
    rw [h.lookup_eq_some]
    refine and_congr_right fun hk' => ⟨?_, ?_⟩
    · rintro ⟨t, ht⟩
      rw [Function.update_apply] at ht
      split at ht
      · obtain rfl : e = e' := Option.some.inj ht
        exact absurd hk' hk
      · exact ⟨t, ht⟩
    · rintro ⟨t, ht⟩
      refine ⟨t, ?_⟩
      rw [Function.update_of_ne, ht]
      rintro rfl
      rcases open_of_probe hs with hfree | ⟨e'', he'', hk''⟩
      · rw [hfree] at ht
        cases ht
      · obtain rfl : e'' = e' := Option.some.inj (he''.symm.trans ht)
        exact hk (hk''.symm.trans hk')

end Probing
