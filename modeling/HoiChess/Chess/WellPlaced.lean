import HoiChess.Chess.Fields
import HoiChess.Chess.Fen

/-!
# Where the men of a FEN end up

What a placement field says can be read off its text: a letter names the rank
that the slashes before it count and the file that the letters and digits
since the last slash add up to (`named`).  `placeLoop` makes the calls that the
text names as far as it reads it (`placeLoop_text`).  Its check of the file
counter lets a letter for a ninth file through, and that is the only way in
which a call can go wrong (`parseFen_wellPlaced_iff`).
-/

namespace HoiChess.Chess

open WordSet Grid Rules

/-! ## What the text names -/

/-- The files that a character fills. -/
def charWidth (c : Char) : Nat := if (fenPiece c).isSome then 1 else (fenDigit c).getD 0

/-- The files filled since the last slash of `pre`. -/
def fileAfter (pre : List Char) : Nat :=
  ((pre.reverse.takeWhile (fun c => c ≠ '/')).map charWidth).sum

def slashes (pre : List Char) : Nat := pre.count '/'

/-- The man of a letter that follows `pre`, on the rank and file it is named for. -/
def Placing.after (pre : List Char) (m : Man) : Placing := ⟨7 - (slashes pre : Int), fileAfter pre, m⟩

/-- The men that the letters of `cs` name, after `pre`. -/
def named (pre : List Char) : List Char → List Placing
  | [] => []
  | c :: cs => ((fenPiece c).map (Placing.after pre)).toList ++ named (pre ++ [c]) cs

/-- After `pre` the loop can go on with `c`. -/
def CanRead (pre : List Char) (c : Char) : Prop :=
  ((fenPiece c).isSome ∨ (fenDigit c).isSome ∨ c = '/') ∧ fileAfter pre ≤ 8 ∧ slashes pre ≤ 7

/-- After `pre` the loop reads all of the text. -/
def ReadsOver (pre : List Char) : List Char → Prop
  | [] => True
  | c :: cs => CanRead pre c ∧ ReadsOver (pre ++ [c]) cs

@[simp] theorem fileAfter_nil : fileAfter [] = 0 := rfl

@[simp] theorem slashes_nil : slashes [] = 0 := rfl

theorem fileAfter_concat (pre : List Char) (c : Char) :
    fileAfter (pre ++ [c]) = if c = '/' then 0 else fileAfter pre + charWidth c := by
  unfold fileAfter
  rw [List.reverse_append, List.reverse_singleton, List.singleton_append, List.takeWhile_cons]
  by_cases h : c = '/'
  · simp [h]
  · simp [h, Nat.add_comm]

theorem slashes_concat (pre : List Char) (c : Char) :
    slashes (pre ++ [c]) = slashes pre + if c = '/' then 1 else 0 := by
  unfold slashes
  rw [List.count_append, List.count_singleton]
  simp only [beq_iff_eq]

theorem slash_ne_of_piece {c : Char} {m : Man} (h : fenPiece c = some m) : c ≠ '/' := by
  rintro rfl
  cases h

theorem slash_ne_of_digit {c : Char} {n : Nat} (h : fenDigit c = some n) : c ≠ '/' := by
  rintro rfl
  cases h

theorem named_append (pre cs cs' : List Char) :
    named pre (cs ++ cs') = named pre cs ++ named (pre ++ cs) cs' := by
  induction cs generalizing pre with
  | nil => simp [named]
  | cons c cs ih => simp [named, ih]

theorem readsOver_append (pre cs cs' : List Char) :
    ReadsOver pre (cs ++ cs') ↔ ReadsOver pre cs ∧ ReadsOver (pre ++ cs) cs' := by
  induction cs generalizing pre with
  | nil => simp [ReadsOver]
  | cons c cs ih => simp [ReadsOver, ih, and_assoc]

theorem mem_named {pre cs : List Char} {p : Placing} (h : p ∈ named pre cs) :
    ∃ mid c post, cs = mid ++ c :: post ∧ fenPiece c = some p.man ∧
      p = .after (pre ++ mid) p.man := by
  induction cs generalizing pre with
  | nil => cases h
  | cons c cs ih =>
    rw [named, List.mem_append, Option.mem_toList, Option.map_eq_some_iff] at h
    rcases h with ⟨m, hm, rfl⟩ | h
    · exact ⟨[], c, cs, rfl, hm, by simp [Placing.after]⟩
    · obtain ⟨mid, d, post, rfl, hd, hp⟩ := ih h
      exact ⟨c :: mid, d, post, rfl, hd, by simpa using hp⟩

/-- After `pre` the loop reads `mid` of the text `cs`, makes its calls and leaves `post`. -/
structure LoopReads (pre cs mid post : List Char) : Prop where
  text : cs = mid ++ post
  reads : ReadsOver pre mid
  stops : ∀ c post', post = c :: post' → ¬ CanRead (pre ++ mid) c
  loop : placeLoop cs (7 - (slashes pre : Int)) (fileAfter pre) = (named pre mid, post.isEmpty)

theorem LoopReads.cons {pre cs mid post : List Char} {c : Char} {calls : List Placing}
    (h : LoopReads (pre ++ [c]) cs mid post) (hc : CanRead pre c)
    (hn : ((fenPiece c).map (Placing.after pre)).toList = calls)
    (hl : placeLoop (c :: cs) (7 - (slashes pre : Int)) (fileAfter pre) =
      (calls ++ named (pre ++ [c]) mid, post.isEmpty)) :
    LoopReads pre (c :: cs) (c :: mid) post where
  text := by rw [h.text]; rfl
  reads := ⟨hc, h.reads⟩
  stops := by simpa using h.stops
  loop := by rw [hl, named, hn]

theorem LoopReads.stuck {pre cs : List Char} {c : Char} (hc : ¬ CanRead pre c)
    (hl : placeLoop (c :: cs) (7 - (slashes pre : Int)) (fileAfter pre) = ([], false)) :
    LoopReads pre (c :: cs) [] (c :: cs) where
  text := rfl
  reads := trivial
  stops d post' e := by
    cases e
    rwa [List.append_nil]
  loop := hl

/-- **The loop makes the calls that the text names, as far as it can read.** -/
theorem placeLoop_text (pre cs : List Char) : ∃ mid post, LoopReads pre cs mid post := by
  induction cs generalizing pre with
  | nil => exact ⟨[], [], rfl, trivial, fun c post' e => (by cases e), rfl⟩
  | cons c cs ih =>
    obtain ⟨mid, post, h⟩ := ih (pre ++ [c])
    have hloop := h.loop
    by_cases hb : fileAfter pre ≤ 8 ∧ slashes pre ≤ 7
    · have hcheck : ¬ (fileAfter pre > 7 + 1 ∨ (7 - (slashes pre : Int)) < 0) := by omega
      cases hp : fenPiece c with
      | some m =>
        have hs := slash_ne_of_piece hp
        have hw : charWidth c = 1 := by simp [charWidth, hp]
        rw [fileAfter_concat, slashes_concat, if_neg hs, if_neg hs, Nat.add_zero, hw] at hloop
        refine ⟨c :: mid, post, h.cons ⟨Or.inl (by simp [hp]), hb⟩ rfl ?_⟩
        rw [placeLoop, if_neg hcheck]
        simp only [hp, hloop, Option.map_some, Option.toList_some, List.singleton_append]
        rfl
      | none =>
        cases hd : fenDigit c with
        | some n =>
          have hs := slash_ne_of_digit hd
          have hw : charWidth c = n := by simp [charWidth, hp, hd]
          rw [fileAfter_concat, slashes_concat, if_neg hs, if_neg hs, Nat.add_zero, hw] at hloop
          refine ⟨c :: mid, post, h.cons ⟨Or.inr (Or.inl (by simp [hd])), hb⟩ rfl ?_⟩
          rw [placeLoop, if_neg hcheck]
          simp only [hp, hd, hloop, Option.map_none, Option.toList_none, List.nil_append]
        | none =>
          by_cases hs : c = '/'
          · rw [fileAfter_concat, slashes_concat, if_pos hs, if_pos hs] at hloop
            refine ⟨c :: mid, post, h.cons ⟨Or.inr (Or.inr hs), hb⟩ rfl ?_⟩
            have hr : (7 - (slashes pre : Int)) - 1 = 7 - ((slashes pre + 1 : Nat) : Int) := by
              push_cast
              omega
            rw [placeLoop, if_neg hcheck]
            simp only [hp, hd, if_pos hs, hr, hloop, Option.map_none, Option.toList_none,
              List.nil_append]
          · refine ⟨[], c :: cs, .stuck ?_ ?_⟩
            · rintro ⟨hc | hc | hc, _⟩
              · simp [hp] at hc
              · simp [hd] at hc
              · exact hs hc
            · rw [placeLoop, if_neg hcheck]
              simp only [hp, hd, if_neg hs]
    · refine ⟨[], c :: cs, .stuck (fun h => hb h.2) ?_⟩
      rw [placeLoop, if_pos (by omega)]

/-! ## A letter for a ninth file -/

/-- The loop comes to a letter `c` for a ninth file. -/
structure NinthLetter (cs pre : List Char) (c : Char) (post : List Char) : Prop where
  text : cs = pre ++ c :: post
  reads : ReadsOver [] (pre ++ [c])
  letter : (fenPiece c).isSome
  file : fileAfter pre = 8

/-- Nothing is read after the ninth file. -/
theorem NinthLetter.loop {cs pre post : List Char} {c : Char} (h : NinthLetter cs pre c post) :
    placeLoop cs rank8 0 = (named [] (pre ++ [c]), post.isEmpty) := by
  obtain ⟨mid, post', hl⟩ := placeLoop_text [] cs
  have hfull : fileAfter (pre ++ [c]) = 9 := by
    obtain ⟨m, hm⟩ := Option.isSome_iff_exists.mp h.letter
    rw [fileAfter_concat, if_neg (slash_ne_of_piece hm), h.file]
    simp [charWidth, hm]
  have htext : (pre ++ [c]) ++ post = mid ++ post' := by rw [← hl.text, h.text]; simp
  rcases List.append_eq_append_iff.mp htext with ⟨l, hmid, hpost⟩ | ⟨l, hmid, hpost⟩
  · cases l with
    | nil =>
      rw [List.append_nil] at hmid
      rw [List.nil_append] at hpost
      rw [← hmid, hpost]
      exact hl.loop
    | cons d l =>
      have hr := hl.reads
      rw [hmid, readsOver_append] at hr
      have := hr.2.1.2.1
      rw [List.nil_append, hfull] at this
      omega
  · cases l with
    | nil =>
      rw [List.append_nil] at hmid
      rw [List.nil_append] at hpost
      rw [hmid, ← hpost]
      exact hl.loop
    | cons d l =>
      have hr := h.reads
      rw [hmid, readsOver_append] at hr
      exact absurd hr.2.1 (hl.stops d (l ++ post) hpost)

theorem exists_ninthLetter {cs : List Char} {p : Placing} (hp : p ∈ (placeLoop cs rank8 0).1)
    (h8 : p.fil = 8) :
    ∃ pre c post, NinthLetter cs pre c post ∧ fenPiece c = some p.man ∧ p = .after pre p.man := by
  obtain ⟨mid, post, hl⟩ := placeLoop_text [] cs
  have hloop : placeLoop cs rank8 0 = (named [] mid, post.isEmpty) := hl.loop
  rw [hloop] at hp
  obtain ⟨pre, c, rest, rfl, hc, hpa⟩ := mem_named hp
  rw [List.nil_append] at hpa
  refine ⟨pre, c, rest ++ post, ⟨?_, ?_, by simp [hc], ?_⟩, hc, hpa⟩
  · rw [hl.text, List.append_assoc]
    rfl
  · have hr := hl.reads
    rw [← List.singleton_append, ← List.append_assoc, readsOver_append] at hr
    exact hr.1
  · rw [hpa] at h8
    exact h8

theorem named_concat {pre : List Char} {c : Char} {m : Man} (hc : fenPiece c = some m) :
    named [] (pre ++ [c]) = named [] pre ++ [.after pre m] := by
  rw [named_append]
  simp [named, hc]

/-- The letter for a ninth file is placed off the board, or on a man. -/
def NinthLetter.Collides (pre : List Char) : Prop :=
  slashes pre = 0 ∨ ∃ q ∈ named [] pre, q.fil = 0 ∧ q.rnk = 8 - (slashes pre : Int)

/-- **The calls are good unless a letter for a ninth file collides.** -/
theorem callsOk_iff_text [Build] (cs : List Char) :
    CallsOk Board.clear (placeLoop cs rank8 0).1 ↔
      ∀ pre c post, NinthLetter cs pre c post → ¬ NinthLetter.Collides pre := by
  obtain ⟨hspec, hpair⟩ := placeLoop_spec cs rank8 0
  rw [callsOk_iff .clear]
  constructor
  · rintro ⟨hsq, hne⟩ pre c post h hcol
    obtain ⟨m, hm⟩ := Option.isSome_iff_exists.mp h.letter
    rw [h.loop, named_concat hm] at hsq hne
    rcases hcol with hz | ⟨q, hq, hq0, hqr⟩
    · obtain ⟨sq, hsq, _⟩ := hsq (.after pre m) (by simp)
      have hidx := Placing.sq_eq_some.mp hsq
      have := sq.isLt
      simp only [Placing.index, Placing.after, hz, h.file] at hidx
      omega
    · have hlast := (List.pairwise_append.mp hne).2.2 q hq (.after pre m) (by simp)
      apply hlast
      simp only [Placing.index, Placing.after, hq0, hqr, h.file]
      push_cast
      ring
  · intro hgood
    constructor
    · intro p hp
      have h1 := hspec p hp
      have hidx : 0 ≤ p.index ∧ p.index < 64 := by
        by_cases h8 : p.fil = 8
        · obtain ⟨pre, c, post, h, _, hpa⟩ := exists_ninthLetter hp h8
          have hz : slashes pre ≠ 0 := fun e => hgood pre c post h (Or.inl e)
          have hr : p.rnk = 7 - (slashes pre : Int) := by rw [hpa]; rfl
          unfold Placing.index
          omega
        · have hr8 : (rank8 : Int) = 7 := rfl
          unfold Placing.index
          omega
      exact ⟨⟨p.index.toNat, by omega⟩, Placing.sq_eq_some.mpr (by simp only; omega), rfl⟩
    · refine hpair.imp_of_mem fun {p q} hp hq hb => ?_
      rcases Nat.lt_or_ge q.fil 8 with h8 | h8
      · exact hb.index_ne (by omega)
      · have hq8 : q.fil = 8 := Nat.le_antisymm (hspec q hq).2.1 h8
        obtain ⟨pre, c, post, h, hc, hqa⟩ := exists_ninthLetter hq hq8
        intro e
        have hr : q.rnk = 7 - (slashes pre : Int) := by rw [hqa]; rfl
        have hpf := hb.1
        unfold Placing.index at e
        rw [h.loop, named_concat hc, List.mem_append] at hp
        refine hgood pre c post h (Or.inr ⟨p, hp.resolve_right ?_, by omega, by omega⟩)
        rw [List.mem_singleton, ← hqa]
        rintro rfl
        omega

/-! ## The other fields -/

/-- Side, castling letters and en passant square can be read. -/
structure FenFields.WellFormed (f : FenFields) : Prop where
  clr : f.clr = 'w' ∨ f.clr = 'b'
  flg : ∀ c ∈ f.flg, c ∈ ['K', 'Q', 'k', 'q', '-']
  ep : f.ep.getD 0 '\x00' = '-' ∨
    f.ep.getD 0 '\x00' ∈ ['a', 'b', 'c', 'd', 'e', 'f', 'g', 'h'] ∧
      f.ep.getD 1 '\x00' ∈ ['3', '6']

/-- The position that the text describes, as far as the final check looks at it. -/
def FenFields.position (f : FenFields) : Position where
  man := placed (fun _ => none) (named [] f.pos)
  side := if f.clr = 'w' then .white else .black
  right _ := false
  ep := none

theorem file_letter_iff (c : Char) :
    (0 ≤ (c.toNat : Int) - 'a'.toNat ∧ (c.toNat : Int) - 'a'.toNat ≤ 7) ↔
      c ∈ ['a', 'b', 'c', 'd', 'e', 'f', 'g', 'h'] := by
  simp only [List.mem_cons, List.not_mem_nil, or_false, ← Char.toNat_inj, Char.reduceToNat]
  omega

theorem rank_digit_iff (c : Char) :
    ((c.toNat : Int) - '1'.toNat = rank3 ∨ (c.toNat : Int) - '1'.toNat = rank6) ↔
      c ∈ ['3', '6'] := by
  have h3 : (rank3 : Int) = 2 := rfl
  have h6 : (rank6 : Int) = 5 := rfl
  simp only [List.mem_cons, List.not_mem_nil, or_false, ← Char.toNat_inj, Char.reduceToNat]
  omega

section Fields

variable [k : Build]

theorem flagLoop_isSome (b : Board) (cs : List Char) :
    (b.flagLoop cs).isSome = true ↔ ∀ c ∈ cs, c ∈ ['K', 'Q', 'k', 'q', '-'] := by
  induction cs generalizing b with
  | nil => simp [Board.flagLoop]
  | cons c cs ih =>
    have hread : ∀ b' : Board, c ∈ ['K', 'Q', 'k', 'q', '-'] →
        ((b'.flagLoop cs).isSome = true ↔ ∀ d ∈ c :: cs, d ∈ ['K', 'Q', 'k', 'q', '-']) :=
      fun b' hc => by rw [ih, List.forall_mem_cons, and_iff_right hc]
    rw [Board.flagLoop]
    split
    · exact hread _ (by simp [*])
    split
    · exact hread _ (by simp [*])
    split
    · exact hread _ (by simp [*])
    split
    · exact hread _ (by simp [*])
    split
    · exact hread _ (by simp [*])
    · simp [*]

theorem setEpField_isSome (b : Board) (ep : List Char) :
    (b.setEpField ep).isSome = true ↔ ep.getD 0 '\x00' = '-' ∨
      ep.getD 0 '\x00' ∈ ['a', 'b', 'c', 'd', 'e', 'f', 'g', 'h'] ∧
        ep.getD 1 '\x00' ∈ ['3', '6'] := by
  rw [← file_letter_iff, ← rank_digit_iff]
  unfold Board.setEpField
  simp only
  split
  · rename_i h
    exact iff_of_true rfl (Or.inl h)
  · rename_i h
    rw [or_iff_right h]
    split
    · rename_i hf
      rw [and_iff_right hf]
      split
      · rename_i hr
        exact iff_of_true rfl (Or.inl hr)
      split
      · rename_i hr
        exact iff_of_true rfl (Or.inr hr)
      · rename_i h3 h6
        exact iff_of_false (by simp) (not_or.mpr ⟨h3, h6⟩)
    · rename_i hf
      exact iff_of_false (by simp) (fun h => hf h.1)

/-- The fields can be read exactly if they are well formed. -/
theorem setFields_isSome (b : Board) (f : FenFields) :
    (b.setFields f).isSome = true ↔ f.WellFormed := by
  have hclr : (Board.sideOfChar f.clr).isSome = true ↔ f.clr = 'w' ∨ f.clr = 'b' := by
    unfold Board.sideOfChar
    split
    · simp [*]
    · split <;> simp [*]
  constructor
  · intro h
    obtain ⟨b', hb⟩ := Option.isSome_iff_exists.mp h
    simp only [Board.setFields, Option.bind_eq_bind, Option.bind_eq_some_iff] at hb
    obtain ⟨c, hc, b1, h1, b2, h2, _⟩ := hb
    exact ⟨hclr.mp (by simp [hc]), (flagLoop_isSome _ _).mp (by rw [h1]; rfl),
      (setEpField_isSome _ _).mp (by rw [h2]; rfl)⟩
  · rintro ⟨h1, h2, h3⟩
    obtain ⟨c, hc⟩ := Option.isSome_iff_exists.mp (hclr.mpr h1)
    obtain ⟨b1, hb1⟩ := Option.isSome_iff_exists.mp ((flagLoop_isSome (b.setSide c) f.flg).mpr h2)
    obtain ⟨b2, hb2⟩ := Option.isSome_iff_exists.mp ((setEpField_isSome b1 f.ep).mpr h3)
    simp [Board.setFields, hc, hb1, hb2]

theorem setFields_side {b b' : Board} {man : Placement} (h : Consistent b man) {f : FenFields}
    (hf : b.setFields f = some b') : b'.side = f.position.side := by
  simp only [Board.setFields, Option.bind_eq_bind, Option.bind_eq_some_iff, Option.pure_def,
    Option.some.injEq] at hf
  obtain ⟨c, hc, b1, h1, b2, h2, rfl⟩ := hf
  obtain ⟨hc1, hs1, _⟩ := flagLoop_spec (h.setSide c) h1
  obtain ⟨_, hs2, _⟩ := setEpField_spec hc1 h2
  have hside : b2.side = c := by rw [hs2.side, hs1.side, side_setSide]
  have hclr : c = f.position.side := by
    unfold Board.sideOfChar at hc
    simp only [FenFields.position]
    split at hc
    · rename_i hw
      rw [if_pos hw]
      exact (Option.some.inj hc).symm
    · rename_i hw
      rw [if_neg hw]
      split at hc
      · exact (Option.some.inj hc).symm
      · cases hc
  exact hside.trans hclr

end Fields

/-! ## Acceptance -/

/-- A field that is read to its end makes all the calls that it names. -/
theorem placeLoop_complete {cs : List Char} (h : (placeLoop cs rank8 0).2 = true) :
    placeLoop cs rank8 0 = (named [] cs, true) := by
  obtain ⟨mid, post, hl⟩ := placeLoop_text [] cs
  have hloop : placeLoop cs rank8 0 = (named [] mid, post.isEmpty) := hl.loop
  rw [hloop] at h
  have hpost : post = [] := List.isEmpty_iff.mp h
  rw [hloop, hl.text, hpost, List.append_nil]
  rfl

/-- The final check looks at the men and the side to move only. -/
theorem Rules.Valid.congr {pos pos' : Position} (h : Valid pos) (hm : pos'.man = pos.man)
    (hs : pos'.side = pos.side) : Valid pos' := by
  refine ⟨by rw [hm]; exact h.king_exists, by rw [hm]; exact h.king_unique,
    by rw [hm]; exact h.pawns, ?_⟩
  unfold Position.Safe
  rw [hm, hs]
  exact h.safe

section Accepted

variable [k : Build] {b : Board} {f : FenFields}

/-- What is known of a board that is accepted. -/
structure Accepted (f : FenFields) (b : Board) : Prop where
  sim : Sim b b.abs
  valid : Valid b.abs
  man : b.manAt = f.position.man
  side : b.side = f.position.side
  calls : placeLoop f.pos rank8 0 = (named [] f.pos, true)
  wellFormed : f.WellFormed
  epsq : ∀ e, b.epsq = some e → rnk e = rank3 ∨ rnk e = rank6

/-- **What an accepted text is and what its board is**, if the calls are good. -/
theorem accepted_spec (hcalls : CallsOk Board.clear (placeLoop f.pos rank8 0).1)
    (hf : Board.parseFenFields f = .accepted b) : Accepted f b := by
  obtain ⟨b0, hb0, hc, hk⟩ := placeAll_consistent .clear (fun c k hk => by cases hk) hcalls
  simp only [Board.parseFenFields, hb0] at hf
  split at hf
  · rename_i hcomplete
    cases hset : b0.setFields f with
    | none =>
      rw [hset] at hf
      cases hf
    | some b1 =>
      simp only [hset] at hf
      split at hf
      · rename_i hvalid
        cases hf
        rw [Bool.and_eq_true] at hvalid
        obtain ⟨hc', hk', hep⟩ := setFields_spec hc hk hset
        obtain ⟨hsim, hv⟩ := sim_of_isValid hc' hk' hvalid.1 hvalid.2
        have hloop := placeLoop_complete hcomplete
        refine ⟨hsim, hv, ?_, setFields_side hc hset, hloop,
          (setFields_isSome b0 f).mp (by rw [hset]; rfl), hep⟩
        rw [hc'.manAt_eq, hloop]
        rfl
      · cases hf
  · cases hf

/-- **A text is accepted if its fields can be read and describe a valid position.** -/
theorem exists_accepted (hcalls : CallsOk Board.clear (placeLoop f.pos rank8 0).1)
    (hcomplete : (placeLoop f.pos rank8 0).2 = true) (hw : f.WellFormed) (hv : Valid f.position) :
    ∃ b, Board.parseFenFields f = .accepted b := by
  obtain ⟨b0, hb0, hc, hk⟩ := placeAll_consistent .clear (fun c k hk => by cases hk) hcalls
  obtain ⟨b1, hset⟩ := Option.isSome_iff_exists.mp ((setFields_isSome b0 f).mpr hw)
  obtain ⟨hc', hk', _⟩ := setFields_spec hc hk hset
  have hman : placed (fun _ => none) (placeLoop f.pos rank8 0).1 = f.position.man := by
    rw [placeLoop_complete hcomplete]
    rfl
  rw [hman] at hc' hk'
  have hside : b1.side = f.position.side := setFields_side hc hset
  have hv' : Valid b1.abs := hv.congr hc'.manAt_eq hside
  have hsim : Sim b1 b1.abs := by
    refine ⟨by rw [← hc'.manAt_eq] at hc'; exact hc', rfl, fun _ => rfl, rfl, ?_⟩
    intro c sq hsq
    have hsq' : f.position.man sq = some (c, .king) := by rw [← hc'.manAt_eq]; exact hsq
    cases hg : b1.getKing c with
    | none => exact absurd hg (hk' c sq hsq')
    | some sq' => rw [hv.king_unique c sq sq' hsq' (hc'.king c sq' hg)]
  refine ⟨b1, ?_⟩
  simp only [Board.parseFenFields, hb0, hcomplete, if_true, hset]
  rw [hsim.isValid hv', (hsim.isLegal (hv'.king_exists _)).mpr hv'.safe]
  rfl

end Accepted

/-! ## Which texts are well placed -/

/-- The fields of a text, which ends at its first NUL. -/
def fenFields (s : String) : Option FenFields := scanFen (s.toList.takeWhile (fun c => c ≠ '\x00'))

/-- Some man is put off the board, on another man, or elsewhere than on the
file it is named for. -/
def FenFields.Spills (f : FenFields) : Prop :=
  ∃ pre c post, NinthLetter f.pos pre c post ∧
    (NinthLetter.Collides pre ∨ (post = [] ∧ f.WellFormed ∧ Valid f.position))

/-- Every man goes to an empty square, and on an accepted board the men stand
where the text says, with all fields in agreement. -/
structure WellPlaced [Build] (s : String) : Prop where
  calls : ∀ f, fenFields s = some f → CallsOk Board.clear (placeLoop f.pos rank8 0).1
  men : ∀ f b, fenFields s = some f → Board.parseFen s = .accepted b →
    ∀ p ∈ named [] f.pos, ∃ sq, (rnk sq : Int) = p.rnk ∧ fil sq = p.fil ∧ b.manAt sq = some p.man
  only : ∀ f b, fenFields s = some f → Board.parseFen s = .accepted b → ∀ sq m,
    b.manAt sq = some m → ∃ p ∈ named [] f.pos, (rnk sq : Int) = p.rnk ∧ fil sq = p.fil ∧ p.man = m
  fields : ∀ b, Board.parseFen s = .accepted b → FieldsAgree b

theorem mem_of_placed {ps : List Placing} {man : Placement} {sq : Square} {m : Man}
    (h : placed man ps sq = some m) :
    man sq = some m ∨ ∃ p ∈ ps, p.sq = some sq ∧ p.man = m := by
  induction ps generalizing man with
  | nil => exact Or.inl h
  | cons p ps ih =>
    rw [placed, List.foldl_cons] at h
    rcases ih h with h | ⟨q, hq, h⟩
    · cases hp : p.sq with
      | none =>
        rw [hp] at h
        exact Or.inl h
      | some t =>
        rw [hp] at h
        simp only [Function.update_apply] at h
        split at h
        · rename_i e
          exact Or.inr ⟨p, List.mem_cons_self, by rw [hp, e], Option.some.inj h⟩
        · exact Or.inl h
    · exact Or.inr ⟨q, List.mem_cons_of_mem _ hq, h⟩

/-- A call for one of the eight files is for the square that it names. -/
theorem coords_of_sq {p : Placing} {sq : Square} (h : p.sq = some sq) (hf : p.fil ≤ 7) :
    (rnk sq : Int) = p.rnk ∧ fil sq = p.fil := by
  have hidx := Placing.sq_eq_some.mp h
  unfold Placing.index at hidx
  unfold rnk fil
  omega

section WellPlaced

variable [k : Build]

theorem parseFen_eq {s : String} {f : FenFields} (hf : fenFields s = some f) :
    Board.parseFen s = Board.parseFenFields f := by
  unfold fenFields at hf
  rw [Board.parseFen, hf]

theorem fields_of_accepted {s : String} {b : Board} (h : Board.parseFen s = .accepted b) :
    ∃ f, fenFields s = some f ∧ Board.parseFenFields f = .accepted b := by
  cases hf : fenFields s with
  | none =>
    unfold fenFields at hf
    rw [Board.parseFen, hf] at h
    cases h
  | some f => exact ⟨f, rfl, by rw [← parseFen_eq hf]; exact h⟩

/-- The steps behind an accepted text. -/
theorem steps_of_accepted {s : String} {b : Board} (h : Board.parseFen s = .accepted b) :
    ∃ f b0, fenFields s = some f ∧ Board.clear.placeAll (placeLoop f.pos rank8 0).1 = some b0 ∧
      b0.setFields f = some b ∧ b.isValid = true ∧ b.isLegal = true := by
  obtain ⟨f, hf, hacc⟩ := fields_of_accepted h
  unfold Board.parseFenFields at hacc
  simp only at hacc
  split at hacc
  · cases hacc
  rename_i b0 hplace
  split at hacc
  · split at hacc
    · cases hacc
    rename_i b1 hset
    split at hacc
    · rename_i hok
      cases hacc
      rw [Bool.and_eq_true] at hok
      exact ⟨f, b0, hf, hplace, hset, hok.1, hok.2⟩
    · cases hacc
  · cases hacc

/-- Off the ninth file, the men of an accepted board stand where they are named. -/
theorem Accepted.men {f : FenFields} {b : Board} (h : Accepted f b)
    (hcalls : CallsOk Board.clear (placeLoop f.pos rank8 0).1)
    (h7 : ∀ p ∈ named [] f.pos, p.fil ≤ 7) :
    (∀ p ∈ named [] f.pos, ∃ sq, (rnk sq : Int) = p.rnk ∧ fil sq = p.fil ∧
      b.manAt sq = some p.man) ∧
    ∀ sq m, b.manAt sq = some m →
      ∃ p ∈ named [] f.pos, (rnk sq : Int) = p.rnk ∧ fil sq = p.fil ∧ p.man = m := by
  rw [h.calls, callsOk_iff .clear] at hcalls
  have hman : b.manAt = placed (fun _ => none) (named [] f.pos) := h.man
  constructor
  · intro p hp
    obtain ⟨sq, hsq, _⟩ := hcalls.1 p hp
    obtain ⟨hr, hf⟩ := coords_of_sq hsq (h7 p hp)
    exact ⟨sq, hr, hf, by rw [hman]; exact mem_placed hp hsq hcalls.2⟩
  · intro sq m hm
    rw [hman] at hm
    obtain ⟨p, hp, hsq, hpm⟩ := (mem_of_placed hm).resolve_left (by simp)
    obtain ⟨hr, hf⟩ := coords_of_sq hsq (h7 p hp)
    exact ⟨p, hp, hr, hf, hpm⟩

/-- **When every man is placed well**, for every text. -/
theorem parseFen_wellPlaced_iff (s : String) :
    WellPlaced s ↔ ∀ f, fenFields s = some f → ¬ f.Spills := by
  constructor
  · rintro h f hf ⟨pre, c, post, hn, hbad⟩
    have hcalls := h.calls f hf
    have hcol := (callsOk_iff_text f.pos).mp hcalls pre c post hn
    obtain ⟨rfl, hw, hv⟩ := hbad.resolve_left hcol
    have hcomplete : (placeLoop f.pos rank8 0).2 = true := by rw [hn.loop]; rfl
    obtain ⟨b, hb⟩ := exists_accepted hcalls hcomplete hw hv
    obtain ⟨m, hm⟩ := Option.isSome_iff_exists.mp hn.letter
    have hmem : .after pre m ∈ named [] f.pos := by
      rw [hn.text, named_concat hm]
      simp
    obtain ⟨sq, _, hfil, _⟩ := h.men f b hf (by rw [parseFen_eq hf]; exact hb) _ hmem
    have h8 : fil sq = 8 := hfil.trans hn.file
    have := fil_lt sq
    omega
  · intro h
    have hcalls : ∀ f, fenFields s = some f → CallsOk Board.clear (placeLoop f.pos rank8 0).1 :=
      fun f hf => (callsOk_iff_text f.pos).mpr
        (fun pre c post hn hcol => h f hf ⟨pre, c, post, hn, Or.inl hcol⟩)
    have hmen : ∀ f b, fenFields s = some f → Board.parseFen s = .accepted b →
        Accepted f b ∧ ∀ p ∈ named [] f.pos, p.fil ≤ 7 := by
      intro f b hf hb
      rw [parseFen_eq hf] at hb
      have hacc := accepted_spec (hcalls f hf) hb
      refine ⟨hacc, fun p hp => ?_⟩
      rcases Nat.lt_or_ge p.fil 8 with h8 | h8
      · exact Nat.le_of_lt_succ h8
      · exfalso
        have hmem : p ∈ (placeLoop f.pos rank8 0).1 := by rw [hacc.calls]; exact hp
        have hle := ((placeLoop_spec f.pos rank8 0).1 p hmem).2.1
        obtain ⟨pre, c, post, hn, _⟩ := exists_ninthLetter hmem (Nat.le_antisymm hle h8)
        have hpost : post.isEmpty = true := congrArg Prod.snd (hn.loop.symm.trans hacc.calls)
        refine h f hf ⟨pre, c, post, hn, Or.inr ⟨List.isEmpty_iff.mp hpost, hacc.wellFormed, ?_⟩⟩
        exact hacc.valid.congr hacc.man.symm hacc.side.symm
    refine ⟨hcalls, fun f b hf hb => ?_, fun f b hf hb => ?_, fun b hb => ?_⟩
    · obtain ⟨hacc, h7⟩ := hmen f b hf hb
      exact (hacc.men (hcalls f hf) h7).1
    · obtain ⟨hacc, h7⟩ := hmen f b hf hb
      exact (hacc.men (hcalls f hf) h7).2
    · obtain ⟨f, hf, _⟩ := fields_of_accepted hb
      obtain ⟨hacc, _⟩ := hmen f b hf hb
      exact hacc.sim.consistent.fieldsAgree (hacc.sim.kings hacc.valid)

end WellPlaced

/-- A pawn written after the eight files of the first rank is accepted, on `a2`. -/
theorem not_wellPlaced_ninthFile :
    ¬ @WellPlaced sampleBuild "4k3/8/8/8/8/8/8/4K3P w - - 0 1" := by
  let _ := sampleBuild
  have hrun : (Board.parseFen "4k3/8/8/8/8/8/8/4K3P w - - 0 1").holds (fun _ => true) = true := by
    decide +kernel
  obtain ⟨b, hb, _⟩ := FenResult.holds_eq_true.mp hrun
  obtain ⟨f, hf, _⟩ := fields_of_accepted hb
  have hnamed : (fenFields "4k3/8/8/8/8/8/8/4K3P w - - 0 1").map (fun f => (named [] f.pos).getLast?) =
      some (some ⟨0, 8, .white, .pawn⟩) := by
    decide +kernel
  rw [hf, Option.map_some, Option.some.injEq] at hnamed
  intro h
  obtain ⟨sq, _, h8, _⟩ := h.men f b hf hb _ (List.mem_of_getLast? hnamed)
  have h8' : fil sq = 8 := h8
  have := fil_lt sq
  omega

end HoiChess.Chess
