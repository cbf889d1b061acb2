import HoiChess.Xiangqi.Reached
import HoiChess.Xiangqi.SameMen

/-!
# Which xiangqi FENs are safe to read

A placement field says of each man in which rank and file it stands (`FenMan`); `parse_fen` lets
a man stand in a tenth file, which is the first file of the rank above, and off the board in the
top rank.  It does not ask for kings either, and the walk of `kings_facing` leaves the board
where nothing stops it (`KingsApart`).  All other texts are safe (`parseFen_safe_iff`).
-/

namespace HoiChess.Xiangqi

open Grid Rules
open Chess (Color PerColor)

/-! ## What a placement field says -/

/-- How many files a character takes. -/
def width (c : Char) : Nat := if c.isDigit then c.toNat - '0'.toNat else 1

/-- The rank behind a piece of the field; the top rank is 9. -/
def rankAfter (pre : List Char) : Int := 9 - pre.count '/'

/-- The file behind a piece of the field. -/
def fileAfter (pre : List Char) : Nat := ((pre.reverse.takeWhile fun c => c ≠ '/').map width).sum

/-- Digits, slashes and the letters of the men. -/
def Legible (c : Char) : Prop := c.isDigit = true ∨ c = '/' ∨ (fenPiece c).isSome = true

/-- A character may follow. -/
def OnField (pre : List Char) : Prop := fileAfter pre ≤ 9 ∧ 0 ≤ rankAfter pre

instance : DecidablePred OnField := fun _ => inferInstanceAs (Decidable (_ ∧ _))

instance : DecidablePred Legible := fun _ => inferInstanceAs (Decidable (_ ∨ _))

/-- Behind a first piece, a man of the text that is reached and where it stands. -/
def ManFrom (pre text : List Char) (p : Placing) : Prop :=
  ∃ q c post, text = q ++ c :: post ∧ fenPiece c = some p.man ∧ p.rnk = rankAfter (pre ++ q) ∧
    p.fil = fileAfter (pre ++ q) ∧ (∀ r, r <+: q → OnField (pre ++ r)) ∧ ∀ d ∈ q, Legible d

/-- A man of the field that is reached, with its rank and file. -/
def FenMan (field : List Char) (p : Placing) : Prop := ManFrom [] field p

/-- The field is read to its end. -/
def ReadThrough (field : List Char) : Prop :=
  ∀ q c post, field = q ++ c :: post → OnField q ∧ Legible c

/-- In the order of reading. -/
def Placing.Before (p q : Placing) : Prop := q.rnk < p.rnk ∨ q.rnk = p.rnk ∧ p.fil < q.fil

/-- The last king of a side in the field. -/
structure LastKing (field : List Char) (c : Color) (p : Placing) : Prop where
  man : FenMan field p
  king : p.man = (c, .king)
  last : ∀ q, FenMan field q → q.man = (c, .king) → q = p ∨ q.Before p

/-- A man in the tenth file stands below the top rank, and the first file of the rank above it is
empty. -/
def WithinNine (field : List Char) : Prop :=
  ∀ p, FenMan field p → p.fil = 9 →
    p.rnk ≠ 9 ∧ ∀ q, FenMan field q → ¬ (q.rnk = p.rnk + 1 ∧ q.fil = 0)

/-- Nothing stops the walk between the kings: there are none, and the last file is empty, or
White's king stands above Black's on one file, and nothing above it. -/
def KingsApart (field : List Char) : Prop :=
  (∀ p, FenMan field p → p.man.2 ≠ .king ∧ p.index % 9 ≠ 8) ∨
    ∃ p q, LastKing field .white p ∧ LastKing field .black q ∧ p.index % 9 = q.index % 9 ∧
      q.index < p.index ∧ ∀ r, FenMan field r → r.index % 9 = p.index % 9 → r.index ≤ p.index

/-- The men of the field on their squares. -/
def Describes (field : List Char) (man : Placement) : Prop :=
  ∀ sq m, man sq = some m ↔ ∃ p, FenMan field p ∧ p.sq = some sq ∧ p.man = m

/-- A board with these men, and nothing else known of it. -/
def Board.ofMan (man : Placement) (c : Color) : Board :=
  { Board.clear with
    side := c
    positionPieces := fun sq => (man sq).map Prod.snd
    positionColors := fun sq => (man sq).map Prod.fst }

/-! ## The loop over the field -/

theorem rankAfter_concat (pre : List Char) (c : Char) :
    rankAfter (pre ++ [c]) = if c = '/' then rankAfter pre - 1 else rankAfter pre := by
  unfold rankAfter
  rw [List.count_append]
  by_cases h : c = '/'
  · rw [if_pos h, h, List.count_singleton_self]
    omega
  · rw [if_neg h, List.count_singleton, if_neg (by simpa using h)]
    omega

theorem fileAfter_concat (pre : List Char) (c : Char) :
    fileAfter (pre ++ [c]) = if c = '/' then 0 else fileAfter pre + width c := by
  unfold fileAfter
  rw [List.reverse_append, List.reverse_singleton, List.singleton_append]
  by_cases h : c = '/'
  · rw [if_pos h, List.takeWhile_cons_of_neg (by simpa using h)]
    rfl
  · rw [if_neg h, List.takeWhile_cons_of_pos (by simpa using h), List.map_cons, List.sum_cons,
      Nat.add_comm]

theorem manFrom_nil (pre : List Char) (p : Placing) : ¬ ManFrom pre [] p := by
  rintro ⟨q, c, post, h, _⟩
  cases q <;> cases h

theorem manFrom_cons (pre cs : List Char) (c : Char) (p : Placing) :
    ManFrom pre (c :: cs) p ↔ OnField pre ∧
      ((fenPiece c = some p.man ∧ p.rnk = rankAfter pre ∧ p.fil = fileAfter pre) ∨
        (Legible c ∧ ManFrom (pre ++ [c]) cs p)) := by
  constructor
  · rintro ⟨q, d, post, htext, hd, hr, hf, hon, hleg⟩
    have hpre : OnField pre := by simpa using hon [] List.nil_prefix
    refine ⟨hpre, ?_⟩
    cases q with
    | nil =>
      cases htext
      rw [List.append_nil] at hr hf
      exact Or.inl ⟨hd, hr, hf⟩
    | cons e q =>
      cases htext
      refine Or.inr ⟨hleg c List.mem_cons_self, q, d, post, rfl, hd, ?_, ?_, ?_, ?_⟩
      · rwa [List.append_assoc]
      · rwa [List.append_assoc]
      · intro r hr'
        rw [List.append_assoc]
        exact hon (c :: r) (List.cons_prefix_cons.mpr ⟨rfl, hr'⟩)
      · exact fun d hd => hleg d (List.mem_cons_of_mem c hd)
  · rintro ⟨hpre, ⟨hd, hr, hf⟩ | ⟨hleg, q, d, post, rfl, hd, hr, hf, hon, hq⟩⟩
    · refine ⟨[], c, cs, rfl, hd, ?_, ?_, ?_, fun d hd => by cases hd⟩
      · rwa [List.append_nil]
      · rwa [List.append_nil]
      · intro r hr'
        rw [List.prefix_nil.mp hr', List.append_nil]
        exact hpre
    · rw [List.append_assoc] at hr hf
      refine ⟨c :: q, d, post, rfl, hd, hr, hf, ?_, ?_⟩
      · intro r hr'
        cases r with
        | nil => rwa [List.append_nil]
        | cons e r =>
          obtain ⟨rfl, hle⟩ := List.cons_prefix_cons.mp hr'
          have := hon r hle
          rwa [List.append_assoc] at this
      · intro e he
        rcases List.mem_cons.mp he with rfl | he
        · exact hleg
        · exact hq e he

theorem legible_of_fenPiece {c : Char} {m : Man} (h : fenPiece c = some m) : Legible c :=
  Or.inr (Or.inr (by rw [h]; rfl))

/-- One round of the loop, told with the piece of the field that was read. -/
theorem placeLoop_cons (pre cs : List Char) (c : Char) :
    placeLoop (c :: cs) (rankAfter pre) (fileAfter pre) =
      if OnField pre ∧ Legible c then
        ((fenPiece c).toList.map (Placing.mk (rankAfter pre) (fileAfter pre)) ++
            (placeLoop cs (rankAfter (pre ++ [c])) (fileAfter (pre ++ [c]))).1,
          (placeLoop cs (rankAfter (pre ++ [c])) (fileAfter (pre ++ [c]))).2)
      else ([], false) := by
  rw [placeLoop, rankAfter_concat, fileAfter_concat]
  by_cases hon : OnField pre
  · have hgo : ¬ (fileAfter pre > 8 + 1 ∨ rankAfter pre < 0) := by
      have := hon.1
      have := hon.2
      omega
    rw [if_neg hgo]
    by_cases hdigit : c.isDigit = true
    · have hne : c ≠ '/' := by
        rintro rfl
        cases hdigit
      have hleg : Legible c := Or.inl hdigit
      rw [if_pos hdigit, if_pos ⟨hon, hleg⟩, if_neg hne, if_neg hne, width, if_pos hdigit,
        fenPiece_of_isDigit hdigit]
      rfl
    · rw [if_neg hdigit]
      by_cases hslash : c = '/'
      · have hleg : Legible c := Or.inr (Or.inl hslash)
        have hnone : fenPiece c = none := by rw [hslash]; rfl
        rw [if_pos hslash, if_pos ⟨hon, hleg⟩, if_pos hslash, if_pos hslash, hnone]
        rfl
      · rw [if_neg hslash, if_neg hslash, if_neg hslash, width, if_neg hdigit]
        cases hm : fenPiece c with
        | none =>
          have hleg : ¬ Legible c := by
            rintro (h | h | h)
            · exact hdigit h
            · exact hslash h
            · rw [hm] at h
              cases h
          rw [if_neg fun h => hleg h.2]
        | some m =>
          rw [if_pos ⟨hon, legible_of_fenPiece hm⟩]
          rfl
  · have hstop : fileAfter pre > 8 + 1 ∨ rankAfter pre < 0 := by
      by_contra h
      exact hon ⟨by omega, by omega⟩
    rw [if_pos hstop, if_neg fun h => hon h.1]

/-- **The calls of `place_piece`** are the men of the field, with their ranks and files. -/
theorem mem_placeLoop (pre cs : List Char) (p : Placing) :
    p ∈ (placeLoop cs (rankAfter pre) (fileAfter pre)).1 ↔ ManFrom pre cs p := by
  induction cs generalizing pre with
  | nil => exact iff_of_false List.not_mem_nil (manFrom_nil pre p)
  | cons c cs ih =>
    have hhere : p ∈ (fenPiece c).toList.map (Placing.mk (rankAfter pre) (fileAfter pre)) ↔
        fenPiece c = some p.man ∧ p.rnk = rankAfter pre ∧ p.fil = fileAfter pre := by
      simp only [List.mem_map, Option.mem_toList]
      constructor
      · rintro ⟨m, hm, rfl⟩
        exact ⟨hm, rfl, rfl⟩
      · rintro ⟨hm, hr, hf⟩
        exact ⟨p.man, hm, by rw [← hr, ← hf]⟩
    rw [manFrom_cons, placeLoop_cons]
    by_cases h : OnField pre ∧ Legible c
    · rw [if_pos h, List.mem_append, hhere, ih, and_iff_right h.1, and_iff_right h.2]
    · rw [if_neg h]
      refine iff_of_false List.not_mem_nil ?_
      rintro ⟨hon, ⟨hm, _⟩ | ⟨hleg, _⟩⟩
      · exact h ⟨hon, legible_of_fenPiece hm⟩
      · exact h ⟨hon, hleg⟩

theorem mem_calls (field : List Char) (p : Placing) :
    p ∈ (placeLoop field 9 0).1 ↔ FenMan field p := mem_placeLoop [] field p

/-- The loop ends with the field exactly if every character is reached and legible. -/
theorem placeLoop_complete (pre cs : List Char) :
    (placeLoop cs (rankAfter pre) (fileAfter pre)).2 = true ↔
      ∀ q c post, cs = q ++ c :: post → OnField (pre ++ q) ∧ Legible c := by
  induction cs generalizing pre with
  | nil =>
    refine iff_of_true rfl fun q c post h => ?_
    cases q <;> cases h
  | cons c cs ih =>
    have hsplit : (∀ q d post, c :: cs = q ++ d :: post → OnField (pre ++ q) ∧ Legible d) ↔
        (OnField pre ∧ Legible c) ∧
          ∀ q d post, cs = q ++ d :: post → OnField (pre ++ [c] ++ q) ∧ Legible d := by
      constructor
      · intro h
        refine ⟨by simpa using h [] c cs rfl, fun q d post hq => ?_⟩
        have := h (c :: q) d post (congrArg (c :: ·) hq)
        rwa [List.append_assoc]
      · rintro ⟨hc, h⟩ q d post hq
        cases q with
        | nil =>
          cases hq
          rwa [List.append_nil]
        | cons e q =>
          obtain ⟨rfl, rfl⟩ := List.cons.inj hq
          have := h q d post rfl
          rwa [List.append_assoc] at this
    rw [hsplit, placeLoop_cons]
    by_cases h : OnField pre ∧ Legible c
    · rw [if_pos h, and_iff_right h, ih]
    · rw [if_neg h]
      exact iff_of_false Bool.false_ne_true fun h' => h h'.1

theorem complete_iff (field : List Char) : (placeLoop field 9 0).2 = true ↔ ReadThrough field :=
  placeLoop_complete [] field

/-- The men are read rank by rank from the top, and from the first file to the tenth. -/
theorem placeLoop_ordered (cs : List Char) (rnk : Int) (fil : Nat) :
    (placeLoop cs rnk fil).1.Pairwise Placing.Before ∧
      ∀ p ∈ (placeLoop cs rnk fil).1,
        (p.rnk < rnk ∨ p.rnk = rnk ∧ fil ≤ p.fil) ∧ 0 ≤ p.rnk ∧ p.fil ≤ 9 := by
  induction cs generalizing rnk fil with
  | nil => exact ⟨List.Pairwise.nil, fun p hp => by cases hp⟩
  | cons c cs ih =>
    rw [placeLoop]
    by_cases hstop : fil > 8 + 1 ∨ rnk < 0
    · rw [if_pos hstop]
      exact ⟨List.Pairwise.nil, fun p hp => by cases hp⟩
    rw [if_neg hstop]
    by_cases hdigit : c.isDigit = true
    · rw [if_pos hdigit]
      obtain ⟨hord, hall⟩ := ih rnk (fil + (c.toNat - '0'.toNat))
      refine ⟨hord, fun p hp => ?_⟩
      have := hall p hp
      omega
    rw [if_neg hdigit]
    by_cases hslash : c = '/'
    · rw [if_pos hslash]
      obtain ⟨hord, hall⟩ := ih (rnk - 1) 0
      refine ⟨hord, fun p hp => ?_⟩
      have := hall p hp
      omega
    rw [if_neg hslash]
    cases fenPiece c with
    | none => exact ⟨List.Pairwise.nil, fun p hp => by cases hp⟩
    | some m =>
      obtain ⟨hord, hall⟩ := ih rnk (fil + 1)
      refine ⟨List.pairwise_cons.mpr ⟨fun p hp => ?_, hord⟩, fun p hp => ?_⟩
      · have := hall p hp
        unfold Placing.Before
        dsimp only
        omega
      · rcases List.mem_cons.mp hp with rfl | hp
        · dsimp only
          omega
        · have := hall p hp
          omega

/-! ## Squares of the calls -/

section Calls

variable {field : List Char} {p q : Placing}

theorem FenMan.bounds (h : FenMan field p) : 0 ≤ p.rnk ∧ p.rnk ≤ 9 ∧ p.fil ≤ 9 := by
  have := (placeLoop_ordered field 9 0).2 p ((mem_calls field p).mpr h)
  omega

/-- **Every call is for a square of its own** exactly if the tenth file is used as allowed. -/
theorem withinNine_iff (field : List Char) : WithinNine field ↔
    (∀ p ∈ (placeLoop field 9 0).1, ∃ sq, p.sq = some sq) ∧
      (placeLoop field 9 0).1.Pairwise (fun p q => p.index ≠ q.index) := by
  have hsq : ∀ p, FenMan field p → ((∃ sq, p.sq = some sq) ↔ ¬ (p.rnk = 9 ∧ p.fil = 9)) := by
    intro p hp
    obtain ⟨h0, h9, hf⟩ := hp.bounds
    constructor
    · rintro ⟨sq, hsq⟩
      have := Placing.sq_eq_some.mp hsq
      have := sq.isLt
      unfold Placing.index at *
      omega
    · intro h
      refine ⟨⟨p.index.toNat, ?_⟩, Placing.sq_eq_some.mpr ?_⟩
      · unfold Placing.index
        omega
      · unfold Placing.index
        dsimp only
        omega
  obtain ⟨hord, hall⟩ := placeLoop_ordered field 9 0
  constructor
  · intro h
    refine ⟨fun p hp => ?_, ?_⟩
    · have hp := (mem_calls field p).mp hp
      exact (hsq p hp).mpr fun e => (h p hp e.2).1 e.1
    · refine hord.imp_of_mem fun {p q} hp hq hbefore e => ?_
      have hp := (mem_calls field p).mp hp
      have hq := (mem_calls field q).mp hq
      have hbp := hp.bounds
      have hbq := hq.bounds
      unfold Placing.Before at hbefore
      unfold Placing.index at e
      exact (h q hq (by omega)).2 p hp ⟨by omega, by omega⟩
  · rintro ⟨hon, hne⟩ p hp hf
    refine ⟨fun hr => (hsq p hp).mp (hon p ((mem_calls field p).mpr hp)) ⟨hr, hf⟩, ?_⟩
    rintro q hq ⟨hr, hq0⟩
    have he : q.index = p.index := by
      unfold Placing.index
      rw [hr, hq0, hf]
      push_cast
      ring
    have hpq : q ≠ p := by
      rintro rfl
      omega
    have : Std.Symm fun p q : Placing => p.index ≠ q.index := ⟨fun _ _ h => h.symm⟩
    exact hne.forall ((mem_calls field q).mpr hq) ((mem_calls field p).mpr hp) hpq he

/-- Calls for different squares put each man where it is called. -/
theorem placed_eq_some {ps : List Placing} {man : Placement}
    (hne : ps.Pairwise fun p q => p.index ≠ q.index) {sq : Square} {m : Man} :
    placed man ps sq = some m ↔ (∃ p ∈ ps, p.sq = some sq ∧ p.man = m) ∨
      man sq = some m ∧ ∀ p ∈ ps, p.sq ≠ some sq := by
  induction ps generalizing man with
  | nil =>
    constructor
    · exact fun h => Or.inr ⟨h, fun p hp => by cases hp⟩
    · rintro (⟨p, hp, _⟩ | ⟨h, _⟩)
      · cases hp
      · exact h
  | cons p ps ih =>
    obtain ⟨hp, hne⟩ := List.pairwise_cons.mp hne
    have hrest : (∃ q ∈ ps, q.sq = some sq ∧ q.man = m) → p.sq ≠ some sq := by
      rintro ⟨q, hq, hqs, _⟩ hps
      exact hp q hq ((Placing.sq_eq_some.mp hps).trans (Placing.sq_eq_some.mp hqs).symm)
    by_cases hps : p.sq = some sq
    · rw [placed_cons hps, ih hne, List.forall_mem_cons]
      simp only [List.exists_mem_cons_iff]
      simp only [hps, Function.update_self, Option.some.injEq, true_and, ne_eq, not_true_eq_false,
        false_and, and_false, or_false]
      constructor
      · rintro (h | ⟨h, _⟩)
        · exact Or.inr h
        · exact Or.inl h
      · rintro (h | h)
        · by_cases hex : ∃ q ∈ ps, q.sq = some sq ∧ q.man = m
          · exact Or.inl hex
          · refine Or.inr ⟨h, fun q hq hqs => ?_⟩
            exact hp q hq ((Placing.sq_eq_some.mp hps).trans (Placing.sq_eq_some.mp hqs).symm)
        · exact Or.inl h
    · obtain ⟨man', hstep, hman⟩ : ∃ man', placed man (p :: ps) = placed man' ps ∧ man' sq = man sq := by
        cases hs : p.sq with
        | none => exact ⟨man, placed_cons_of_none hs ps, rfl⟩
        | some t =>
          refine ⟨_, placed_cons hs ps, Function.update_of_ne ?_ _ _⟩
          rintro rfl
          exact hps hs
      rw [hstep, ih hne, List.forall_mem_cons, hman]
      simp only [List.exists_mem_cons_iff, hps, false_and, false_or, ne_eq, not_false_eq_true, true_and]

theorem Describes.unique {man man' : Placement} (h : Describes field man)
    (h' : Describes field man') : man = man' := by
  funext sq
  refine Option.ext fun m => ?_
  rw [h sq m, h' sq m]

theorem describes_placed (h : WithinNine field) :
    Describes field (placed (fun _ => none) (placeLoop field 9 0).1) := by
  intro sq m
  rw [placed_eq_some ((withinNine_iff field).mp h).2]
  constructor
  · rintro (⟨p, hp, hm⟩ | ⟨h, _⟩)
    · exact ⟨p, (mem_calls field p).mp hp, hm⟩
    · cases h
  · rintro ⟨p, hp, hm⟩
    exact Or.inl ⟨p, (mem_calls field p).mpr hp, hm⟩

/-- The king squares are those of the last calls. -/
theorem getKing_placeAll [Keys] {b b' : Board} {ps : List Placing} (h : b.placeAll ps = some b')
    (c : Color) : b'.getKing c =
      match (ps.filter fun p => p.man = (c, .king)).getLast? with
      | some p => p.sq
      | none => b.getKing c := by
  induction ps generalizing b with
  | nil =>
    cases h
    rfl
  | cons p ps ih =>
    rw [Board.placeAll] at h
    cases hsq : p.sq with
    | none =>
      rw [hsq] at h
      cases h
    | some sq =>
      rw [hsq] at h
      rw [ih h]
      have hking : (b.placePiece sq p.man.1 p.man.2).getKing c =
          if p.man = (c, .king) then some sq else b.getKing c := by
        show (if p.man.2 = .king then b.king.set p.man.1 (some sq) else b.king).get c = _
        by_cases hk : p.man.2 = .king
        · rw [if_pos hk, PerColor.get_set]
          by_cases hc : p.man.1 = c
          · rw [if_pos hc, if_pos (Prod.ext hc hk)]
          · rw [if_neg hc, if_neg fun e => hc (congrArg Prod.fst e)]
        · rw [if_neg hk, if_neg fun e => hk (congrArg Prod.snd e)]
      by_cases hp : p.man = (c, .king)
      · rw [List.filter_cons_of_pos (by simpa using hp), List.getLast?_cons]
        rw [if_pos hp] at hking
        cases hl : (ps.filter fun p => p.man = (c, .king)).getLast? with
        | none =>
          rw [hking]
          exact hsq.symm
        | some q => rfl
      · rw [List.filter_cons_of_neg (by simpa using hp)]
        rw [if_neg hp] at hking
        cases hl : (ps.filter fun p => p.man = (c, .king)).getLast? with
        | none => exact hking
        | some q => rfl

theorem Placing.Before.asymm (h : p.Before q) : ¬ q.Before p := by
  unfold Placing.Before at *
  omega

/-- The last of an ordered list. -/
theorem getLast?_eq_some_of_ordered {l : List Placing} (hl : l.Pairwise Placing.Before) :
    l.getLast? = some p ↔ p ∈ l ∧ ∀ q ∈ l, q = p ∨ q.Before p := by
  constructor
  · intro h
    obtain ⟨l', rfl⟩ := List.getLast?_eq_some_iff.mp h
    refine ⟨List.mem_append_right l' List.mem_cons_self, fun q hq => ?_⟩
    rcases List.mem_append.mp hq with hq | hq
    · exact Or.inr ((List.pairwise_append.mp hl).2.2 q hq p List.mem_cons_self)
    · exact Or.inl (List.mem_singleton.mp hq)
  · rintro ⟨hp, hall⟩
    cases hlast : l.getLast? with
    | none =>
      rw [List.getLast?_eq_none_iff.mp hlast] at hp
      cases hp
    | some r =>
      obtain ⟨l', rfl⟩ := List.getLast?_eq_some_iff.mp hlast
      rcases List.mem_append.mp hp with hp | hp
      · have hbefore := (List.pairwise_append.mp hl).2.2 p hp r List.mem_cons_self
        rcases hall r (List.mem_append_right l' List.mem_cons_self) with rfl | h
        · rfl
        · exact absurd h hbefore.asymm
      · rw [List.mem_singleton.mp hp]

theorem lastKing_iff (c : Color) : LastKing field c p ↔
    ((placeLoop field 9 0).1.filter fun p => p.man = (c, .king)).getLast? = some p := by
  rw [getLast?_eq_some_of_ordered ((placeLoop_ordered field 9 0).1.filter _)]
  simp only [List.mem_filter, mem_calls, decide_eq_true_eq]
  constructor
  · intro h
    exact ⟨⟨h.man, h.king⟩, fun q hq => h.last q hq.1 hq.2⟩
  · rintro ⟨⟨hm, hk⟩, hl⟩
    exact ⟨hm, hk, fun q hq hqk => hl q ⟨hq, hqk⟩⟩

/-- The king of a side on the board of the field. -/
theorem getKing_eq_some [Keys] {b : Board}
    (hb : Board.clear.placeAll (placeLoop field 9 0).1 = some b) {c : Color} {k : Square} :
    b.getKing c = some k ↔ ∃ p, LastKing field c p ∧ p.index = (k.val : Int) := by
  rw [getKing_placeAll hb]
  have hclear : Board.clear.getKing c = none := by cases c <;> rfl
  cases hl : ((placeLoop field 9 0).1.filter fun p => p.man = (c, .king)).getLast? with
  | none =>
    dsimp only
    rw [hclear]
    refine iff_of_false (by simp) ?_
    rintro ⟨p, hp, _⟩
    rw [lastKing_iff, hl] at hp
    cases hp
  | some p =>
    dsimp only
    constructor
    · exact fun hk => ⟨p, (lastKing_iff c).mpr hl, Placing.sq_eq_some.mp hk⟩
    · rintro ⟨q, hq, hk⟩
      rw [lastKing_iff, hl] at hq
      cases hq
      exact Placing.sq_eq_some.mpr hk

end Calls

/-! ## The walk between the kings -/

/-- The walk leaves the board where it meets neither the other king nor a man. -/
theorem facingLoop_eq_none {b : Board} {sqb : Int} {fuel : Nat} {sq : Int} (h0 : 0 ≤ sq)
    (hb : sqb < 90) (hfuel : 90 ≤ sq + 9 * fuel) : b.facingLoop sqb fuel sq = none ↔
      ∀ t : Square, sq ≤ t.val → (t.val - sq) % 9 = 0 → (t.val : Int) ≠ sqb ∧ b.colorAt t = none := by
  induction fuel generalizing sq with
  | zero =>
    refine iff_of_true rfl fun t ht _ => ?_
    have := t.isLt
    omega
  | succ fuel ih =>
    rw [Board.facingLoop]
    by_cases hs : sq = sqb
    · rw [if_pos hs]
      refine iff_of_false (by simp) fun h => ?_
      refine (h ⟨sq.toNat, by omega⟩ ?_ ?_).1 ?_
      · dsimp only
        omega
      · dsimp only
        omega
      · dsimp only
        omega
    rw [if_neg hs]
    by_cases hon : 0 ≤ sq ∧ sq < 90
    · rw [dif_pos hon]
      by_cases hc : b.colorAt ⟨sq.toNat, by omega⟩ ≠ none
      · rw [if_pos hc]
        refine iff_of_false (by simp) fun h => hc (h ⟨sq.toNat, by omega⟩ ?_ ?_).2
        · dsimp only
          omega
        · dsimp only
          omega
      · rw [if_neg hc, ih (by omega) (by omega)]
        constructor
        · intro h t ht hmod
          by_cases ht' : sq + 9 ≤ t.val
          · exact h t ht' (by omega)
          · have htv : (t.val : Int) = sq := by omega
            have hte : t = ⟨sq.toNat, by omega⟩ := Fin.ext (by dsimp only; omega)
            refine ⟨by omega, ?_⟩
            rw [hte]
            exact not_not.mp hc
        · exact fun h t ht hmod => h t (by omega) (by omega)
    · rw [dif_neg hon]
      refine iff_of_true rfl fun t ht _ => ?_
      have := t.isLt
      omega

/-- What the walk finds on a file is what the field says of it. -/
theorem colorAt_eq_none_iff [Keys] {field : List Char} {b : Board} {man : Placement}
    (hb : Consistent b man) (hman : Describes field man) (t : Square) :
    b.colorAt t = none ↔ ∀ p, FenMan field p → p.index ≠ t.val := by
  rw [hb.colors.eq_none, Option.eq_none_iff_forall_ne_some]
  constructor
  · exact fun h p hp hi => h p.man ((hman t p.man).mpr ⟨p, hp, Placing.sq_eq_some.mpr hi, rfl⟩)
  · intro h m hm
    obtain ⟨p, hp, hsq, _⟩ := (hman t m).mp hm
    exact h p hp (Placing.sq_eq_some.mp hsq)

/-- A side without a king square has no king in the field. -/
theorem no_king_of_getKing [Keys] {field : List Char} {b : Board} (hw : WithinNine field)
    (hb : Board.clear.placeAll (placeLoop field 9 0).1 = some b) {c : Color}
    (h : b.getKing c = none) : ∀ p, FenMan field p → p.man ≠ (c, .king) := by
  intro p hp hk
  cases hl : ((placeLoop field 9 0).1.filter fun p => p.man = (c, .king)).getLast? with
  | none =>
    have := List.getLast?_eq_none_iff.mp hl
    exact List.not_mem_nil (this ▸ List.mem_filter.mpr ⟨(mem_calls field p).mpr hp, by simpa using hk⟩)
  | some q =>
    have hq := (lastKing_iff c).mpr hl
    obtain ⟨sq, hsq⟩ := ((withinNine_iff field).mp hw).1 q ((mem_calls field q).mpr hq.man)
    rw [(getKing_eq_some hb).mpr ⟨q, hq, Placing.sq_eq_some.mp hsq⟩] at h
    cases h

/-- With a king on each side, they stand apart exactly if nothing stops the walk. -/
theorem kingsApart_iff_of_kings {field : List Char} {p q : Placing}
    (hp : LastKing field .white p) (hq : LastKing field .black q) :
    KingsApart field ↔ p.index % 9 = q.index % 9 ∧ q.index < p.index ∧
      ∀ r, FenMan field r → r.index % 9 = p.index % 9 → r.index ≤ p.index := by
  constructor
  · rintro (h | ⟨p', q', hp', hq', h⟩)
    · exact absurd (congrArg Prod.snd hp.king) (h p hp.man).1
    · have hpe : p' = p :=
        Option.some.inj (((lastKing_iff _).mp hp').symm.trans ((lastKing_iff _).mp hp))
      have hqe : q' = q :=
        Option.some.inj (((lastKing_iff _).mp hq').symm.trans ((lastKing_iff _).mp hq))
      rwa [hpe, hqe] at h
  · exact fun h => Or.inr ⟨p, q, hp, hq, h⟩

/-- No square is on no file. -/
theorem tmod_squareInt_none (k : Square) :
    (Board.squareInt none).tmod 9 ≠ (Board.squareInt (some k)).tmod 9 := by
  have hk := k.isLt
  show (-1 : Int).tmod 9 ≠ (k.val : Int).tmod 9
  rw [show (-1 : Int).tmod 9 = -1 from rfl, Int.tmod_eq_emod_of_nonneg (by omega)]
  omega

/-- **Where the walk of `kings_facing` leaves the board.** -/
theorem kingsFacingWalk_eq_none [Keys] {field : List Char} {b : Board} {man : Placement}
    (hw : WithinNine field) (hb : Board.clear.placeAll (placeLoop field 9 0).1 = some b)
    (hc : Consistent b man) (hman : Describes field man) :
    b.kingsFacingWalk = none ↔ KingsApart field := by
  have hsome : ∀ {c k}, b.getKing c = some k → ∃ p, LastKing field c p ∧ p.index = (k.val : Int) :=
    fun h => (getKing_eq_some hb).mp h
  have hnone := fun c => no_king_of_getKing (c := c) hw hb
  have hfree := colorAt_eq_none_iff hc hman
  unfold Board.kingsFacingWalk
  cases hkw : b.getKing .white with
  | none =>
    cases hkb : b.getKing .black with
    | none =>
      have hking : ∀ p, FenMan field p → p.man.2 ≠ .king := by
        rintro ⟨rk, fl, ⟨c, m⟩⟩ hp hk
        cases c with
        | white => exact hnone .white hkw _ hp (by rw [← hk])
        | black => exact hnone .black hkb _ hp (by rw [← hk])
      show (if (-1 : Int).tmod 9 ≠ (-1 : Int).tmod 9 then some false
        else b.facingLoop (-1) Board.walkFuel 8) = none ↔ _
      rw [if_neg (fun h => h rfl), facingLoop_eq_none (by decide) (by decide) (by decide)]
      constructor
      · intro h
        refine Or.inl fun p hp => ⟨hking p hp, fun hmod => ?_⟩
        obtain ⟨sq, hsq⟩ := ((withinNine_iff field).mp hw).1 p ((mem_calls field p).mpr hp)
        have hi := Placing.sq_eq_some.mp hsq
        exact (hfree sq).mp (h sq (by omega) (by omega)).2 p hp hi
      · rintro (h | ⟨p, q, hp, _⟩) t ht hmod
        · refine ⟨by omega, (hfree t).mpr fun p hp hi => ?_⟩
          exact (h p hp).2 (by omega)
        · exact absurd (congrArg Prod.snd hp.king) (hking p hp.man)
    | some kb =>
      obtain ⟨q, hq, _⟩ := hsome hkb
      dsimp only
      rw [if_pos (tmod_squareInt_none kb)]
      refine iff_of_false (by simp) ?_
      rintro (h | ⟨p, _, hp, _⟩)
      · exact (h q hq.man).1 (congrArg Prod.snd hq.king)
      · exact hnone .white hkw p hp.man hp.king
  | some kw =>
    obtain ⟨p, hp, hpi⟩ := hsome hkw
    have hk := kw.isLt
    cases hkb : b.getKing .black with
    | none =>
      dsimp only
      rw [if_pos (tmod_squareInt_none kw).symm]
      refine iff_of_false (by simp) ?_
      rintro (h | ⟨_, q, _, hq, _⟩)
      · exact (h p hp.man).1 (congrArg Prod.snd hp.king)
      · exact hnone .black hkb q hq.man hq.king
    | some kb =>
      obtain ⟨q, hq, hqi⟩ := hsome hkb
      have hk' := kb.isLt
      rw [kingsApart_iff_of_kings hp hq]
      show (if (kw.val : Int).tmod 9 ≠ (kb.val : Int).tmod 9 then some false
        else b.facingLoop kb.val Board.walkFuel (kw.val + 9)) = none ↔ _
      rw [Int.tmod_eq_emod_of_nonneg (by omega), Int.tmod_eq_emod_of_nonneg (by omega)]
      by_cases hmod : (kw.val : Int) % 9 = (kb.val : Int) % 9
      · rw [if_neg (not_not.mpr hmod),
          facingLoop_eq_none (by omega) (by omega) (by unfold Board.walkFuel; omega)]
        have hne : kw ≠ kb := by
          rintro rfl
          have h1 := (hc.king _ _ hkw).symm.trans (hc.king _ _ hkb)
          cases h1
        have hval : kw.val ≠ kb.val := fun e => hne (Fin.ext e)
        constructor
        · intro h
          refine ⟨by omega, ?_, fun r hr hrmod => ?_⟩
          · by_contra hlt
            exact (h kb (by omega) (by omega)).1 rfl
          · by_contra hlt
            obtain ⟨sq, hsq⟩ := ((withinNine_iff field).mp hw).1 r ((mem_calls field r).mpr hr)
            have hi := Placing.sq_eq_some.mp hsq
            exact (hfree sq).mp (h sq (by omega) (by omega)).2 r hr hi
        · rintro ⟨_, hlt, h⟩ t ht htmod
          refine ⟨by omega, (hfree t).mpr fun r hr hi => ?_⟩
          have := h r hr (by omega)
          omega
      · rw [if_pos hmod]
        refine iff_of_false (by simp) fun h => hmod ?_
        omega

/-- The walks read inside the tables. -/
theorem reads_in_table (s : Square) {d : Dir} (hd : Short d) :
    0 ≤ invmap s + delta d ∧ invmap s + delta d < mapTable.length := by
  have hf := fil_lt s
  have hr := rnk_lt s
  obtain ⟨h1, h2⟩ := hd
  rw [invmap_delta, cellAt, show mapTable.length = 182 from rfl]
  omega

/-! ## Safe texts -/

/-- What `parse_fen` scans; the text ends at its first NUL. -/
def fenFields (s : String) : Option FenFields := scanFen (s.toList.takeWhile (fun c => c ≠ '\x00'))

section Keys

variable [Keys]

theorem parseFen_of_none {s : String} (h : fenFields s = none) : Board.parseFen s = .rejected := by
  unfold fenFields at h
  rw [Board.parseFen, h]

theorem parseFen_of_some {s : String} {f : FenFields} (h : fenFields s = some f) :
    Board.parseFen s = Board.parseFenFields f := by
  unfold fenFields at h
  rw [Board.parseFen, h]

/-- `parse_fen` asks for squares of the board only, and gives each one man at most. -/
structure SafeFen (s : String) : Prop where
  inside : Board.parseFen s ≠ .undefined
  alone : ∀ f, fenFields s = some f →
    (placeLoop f.pos 9 0).1.Pairwise fun p q => p.index ≠ q.index

/-- The men stand on the board, and if `kings_facing` is asked, something stops its walk: the side
to move attacks the other king before, or the kings do not stand in its way. -/
structure Harmless (f : FenFields) : Prop where
  within : WithinNine f.pos
  stops : ReadThrough f.pos → ∀ c, Chess.Board.sideOfChar f.clr = some c →
    ∀ man, Describes f.pos man →
      (∀ k sq, LastKing f.pos c.xside k → k.sq = some sq →
        (Board.ofMan man c).isAttacked (some sq) c = false) →
      ¬ KingsApart f.pos

theorem placeAll_eq_none {b : Board} {ps : List Placing} (h : ∃ p ∈ ps, p.sq = none) :
    b.placeAll ps = none := by
  induction ps generalizing b with
  | nil =>
    obtain ⟨p, hp, _⟩ := h
    cases hp
  | cons p ps ih =>
    rw [Board.placeAll]
    cases hsq : p.sq with
    | none => rfl
    | some sq =>
      obtain ⟨q, hq, hnone⟩ := h
      rcases List.mem_cons.mp hq with rfl | hq
      · rw [hsq] at hnone
        cases hnone
      · exact ih ⟨q, hq, hnone⟩

theorem checked_eq_undefined (b : Board) :
    b.checked = .undefined ↔ b.isValid = true ∧ b.kingsFacingWalk = none := by
  unfold Board.checked
  cases b.isValid with
  | false => exact iff_of_false (by simp) (by simp)
  | true =>
    by_cases hwalk : b.kingsFacingWalk = none
    · simp [hwalk]
    · refine iff_of_false ?_ (fun h => hwalk h.2)
      rw [if_neg (by simp), if_neg hwalk]
      cases b.isLegal <;> simp

/-- The board of a field whose men have a square each. -/
theorem WithinNine.placeAll {field : List Char} (h : WithinNine field) :
    ∃ b man, Board.clear.placeAll (placeLoop field 9 0).1 = some b ∧ Consistent b man ∧
      Describes field man := by
  obtain ⟨hon, hne⟩ := (withinNine_iff field).mp h
  have hfree : ∀ p ∈ (placeLoop field 9 0).1, ∃ sq, p.sq = some sq ∧
      (fun _ => none : Placement) sq = none := by
    intro p hp
    obtain ⟨sq, hsq⟩ := hon p hp
    exact ⟨sq, hsq, rfl⟩
  obtain ⟨b, hb, hc, _⟩ := placeAll_consistent Consistent.clear (fun c k hk => by cases hk) hfree hne
  exact ⟨b, _, hb, hc, describes_placed h⟩

/-- The attack on the other king, as the field has it. -/
theorem isValid_iff {field : List Char} {b : Board} {man : Placement} (c : Color) {b' : Board}
    (hw : WithinNine field) (hb : Board.clear.placeAll (placeLoop field 9 0).1 = some b)
    (hc : Consistent b man) (hpieces : b'.positionPieces = b.positionPieces)
    (hcolors : b'.positionColors = b.positionColors) (hking : b'.king = b.king)
    (hside : b'.side = c) : b'.isValid = true ↔
      ∀ k sq, LastKing field c.xside k → k.sq = some sq →
        (Board.ofMan man c).isAttacked (some sq) c = false := by
  have hattack : ∀ dst, b'.isAttacked dst c = (Board.ofMan man c).isAttacked dst c := by
    refine isAttacked_congr ?_ ?_ hside rfl
    · rw [hpieces]
      exact funext hc.pieces
    · rw [hcolors]
      exact funext hc.colors
  have hget : b'.getKing c.xside = b.getKing c.xside := congrArg (fun k => k.get c.xside) hking
  have hlast := fun k => getKing_eq_some hb (c := c.xside) (k := k)
  unfold Board.isValid
  rw [Bool.not_eq_true', hside, hget]
  cases hk : b.getKing c.xside with
  | none =>
    refine iff_of_true (isAttacked_none hside) fun k sq hlk _ => ?_
    exact absurd hlk.king (no_king_of_getKing hw hb hk k hlk.man)
  | some k =>
    rw [hattack]
    constructor
    · intro h p sq hp hsq
      have hsome := (hlast sq).mpr ⟨p, hp, Placing.sq_eq_some.mp hsq⟩
      rw [hk] at hsome
      cases hsome
      exact h
    · intro h
      obtain ⟨p, hp, hi⟩ := (hlast k).mp hk
      exact h p k hp (Placing.sq_eq_some.mpr hi)

/-- **Which fields `parse_fen` reads without leaving the board.** -/
theorem parseFenFields_undefined {f : FenFields} (hw : WithinNine f.pos) :
    Board.parseFenFields f = .undefined ↔ ReadThrough f.pos ∧
      ∃ c, Chess.Board.sideOfChar f.clr = some c ∧ ∃ man, Describes f.pos man ∧
        (∀ k sq, LastKing f.pos c.xside k → k.sq = some sq →
          (Board.ofMan man c).isAttacked (some sq) c = false) ∧ KingsApart f.pos := by
  obtain ⟨b, man, hb, hc, hman⟩ := hw.placeAll
  unfold Board.parseFenFields
  dsimp only
  rw [hb]
  dsimp only
  by_cases hread : ReadThrough f.pos
  · rw [if_pos ((complete_iff f.pos).mpr hread), and_iff_right hread]
    cases hside : Chess.Board.sideOfChar f.clr with
    | none =>
      refine iff_of_false (by simp) ?_
      rintro ⟨c, h, _⟩
      cases h
    | some c =>
      dsimp only
      have hset := b.setSide_frame c
      rw [checked_eq_undefined, isValid_iff c hw hb hc (by exact hset.1) (by exact hset.2.1)
        (by exact hset.2.2.1) (by exact hset.2.2.2)]
      rw [kingsFacingWalk_congr (by exact hset.2.1) (by exact hset.2.2.1),
        kingsFacingWalk_eq_none hw hb hc hman]
      constructor
      · rintro ⟨hatt, hapart⟩
        exact ⟨c, rfl, man, hman, hatt, hapart⟩
      · rintro ⟨c', hc', man', hman', hatt, hapart⟩
        cases hc'
        rw [hman'.unique hman] at hatt
        exact ⟨hatt, hapart⟩
  · rw [if_neg fun h => hread ((complete_iff f.pos).mp h)]
    exact iff_of_false (by simp) fun h => hread h.1

/-- **Which texts are safe to read.** -/
theorem parseFen_safe_iff (s : String) :
    SafeFen s ↔ ∀ f, fenFields s = some f → Harmless f := by
  cases hf : fenFields s with
  | none =>
    have hrun : Board.parseFen s = .rejected := parseFen_of_none hf
    refine iff_of_true ⟨by rw [hrun]; simp, fun f h => ?_⟩ fun f h => by cases h
    rw [hf] at h
    cases h
  | some f =>
    have hrun : Board.parseFen s = Board.parseFenFields f := parseFen_of_some hf
    constructor
    · rintro ⟨hinside, halone⟩ f' hf'
      cases hf'
      rw [hrun] at hinside
      have hw : WithinNine f.pos := by
        refine (withinNine_iff f.pos).mpr ⟨fun p hp => ?_, halone f hf⟩
        cases hsq : p.sq with
        | some sq => exact ⟨sq, rfl⟩
        | none =>
          refine absurd ?_ hinside
          unfold Board.parseFenFields
          simp only [placeAll_eq_none ⟨p, hp, hsq⟩]
      refine ⟨hw, fun hread c hc man hman hatt hapart => hinside ?_⟩
      exact (parseFenFields_undefined hw).mpr ⟨hread, c, hc, man, hman, hatt, hapart⟩
    · intro h
      obtain ⟨hw, hstops⟩ := h f rfl
      refine ⟨fun hundef => ?_, fun f' hf' => ?_⟩
      · rw [hrun] at hundef
        obtain ⟨hread, c, hc, man, hman, hatt, hapart⟩ := (parseFenFields_undefined hw).mp hundef
        exact hstops hread c hc man hman hatt hapart
      · rw [hf] at hf'
        cases hf'
        exact ((withinNine_iff f.pos).mp hw).2

end Keys

/-- On an empty board the walk goes up the last file and beyond it. -/
theorem unsafe_emptyFen : ¬ @SafeFen sampleKeys "9/9/9/9/9/9/9/9/9/9 w 0 1" := by
  intro h
  refine @SafeFen.inside sampleKeys _ h ?_
  have hfields : fenFields "9/9/9/9/9/9/9/9/9/9 w 0 1" =
      some ⟨"9/9/9/9/9/9/9/9/9/9".toList, 'w', 0, 1⟩ := by decide +kernel
  have hcalls : placeLoop "9/9/9/9/9/9/9/9/9/9".toList 9 0 = ([], true) := by decide +kernel
  have hrun : @Board.parseFen sampleKeys "9/9/9/9/9/9/9/9/9/9 w 0 1" =
      @Board.checked sampleKeys Board.clear := by
    rw [@parseFen_of_some sampleKeys _ _ hfields]
    unfold Board.parseFenFields
    dsimp only
    rw [hcalls]
    rfl
  rw [hrun]
  refine (@checked_eq_undefined sampleKeys _).mpr ⟨?_, by decide +kernel⟩
  show (!@Board.isAttacked Board.clear sampleKeys none .white) = true
  rw [@isAttacked_none Board.clear sampleKeys .white rfl]
  rfl

end HoiChess.Xiangqi
