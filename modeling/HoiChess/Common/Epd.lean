import Mathlib.Logic.Function.Basic
import HoiChess.Lib.Stdio

/-!
# Reading EPD records

`EPD::EPD` copies its string, takes a newline off its end, and walks over the copy with three
functions that hand on the pointer to each other: `parse` reads the four fields of the position
and then operations, `parse_opcode` an opcode, `parse_operand` an operand, which may be quoted.
A pointer is what can be read from there to the end of the buffer, and `none` is a read or a
write outside.
-/

namespace HoiChess

open Stdio

/-- The map from opcodes to operands. -/
abbrev EpdOps := List Char → Option (List (List Char))

structure Epd where
  fenPosition : List Char
  fenColor : List Char
  fenCastling : List Char
  fenEp : List Char
  ops : EpdOps

namespace Epd

def empty : Epd := ⟨[], [], [], [], fun _ => none⟩

abbrev nul : Char := '\x00'

/-- The states before `S_DONE`. -/
inductive Field where
  | position
  | color
  | castling
  | ep
  deriving DecidableEq

/-- `state++`; `none` is `S_DONE`. -/
def Field.next : Field → Option Field
  | .position => some .color
  | .color => some .castling
  | .castling => some .ep
  | .ep => none

/-- `fen_.. += c` -/
def addChar (e : Epd) (c : Char) : Field → Epd
  | .position => { e with fenPosition := e.fenPosition ++ [c] }
  | .color => { e with fenColor := e.fenColor ++ [c] }
  | .castling => { e with fenCastling := e.fenCastling ++ [c] }
  | .ep => { e with fenEp := e.fenEp ++ [c] }

/-- The first loop of `parse`. -/
def parseFields : Field → Epd → List Char → Option (Epd × List Char)
  | _, _, [] => none
  | state, e, c :: p =>
    if c = nul then some (e, c :: p)
    else if c = ' ' then
      match state.next with
      | none => some (e, p)
      | some state => parseFields state e p
    else parseFields state (e.addChar c state) p

/-- `parse_operand(p, opcode)`: what is pushed and the pointer that is returned; the flag says
whether the loop over a quoted string is at work. -/
def parseOperand : Bool → List Char → List Char → Option (Option (List Char) × List Char)
  | _, _, [] => none
  | true, operand, c :: p =>
    -- behind the loop `p++` steps over the quote, and also over a NUL that ended it
    if c = nul ∨ c = '"' then parseOperand false operand p
    else parseOperand true (operand ++ [c]) p
  | false, operand, c :: p =>
    if c = nul then some (none, c :: p)
    else if c = '"' then parseOperand true operand p
    else if c = ';' ∨ c = ' ' then some (some operand, c :: p)
    else parseOperand false (operand ++ [c]) p

/-- `ops[opcode].push_back(operand)` -/
def pushOperand (ops : EpdOps) (opcode : List Char) : Option (List Char) → EpdOps
  | none => ops
  | some operand => Function.update ops opcode (some ((ops opcode).getD [] ++ [operand]))

/-- The pointer only moves on. -/
theorem parseOperand_length {quoted : Bool} {operand p q : List Char} {r : Option (List Char)}
    (h : parseOperand quoted operand p = some (r, q)) : q.length ≤ p.length := by
  induction p generalizing quoted operand with
  | nil => cases quoted <;> cases h
  | cons c p ih =>
    cases quoted with
    | true =>
      rw [parseOperand] at h
      split at h
      · exact (ih h).trans (Nat.le_succ _)
      · exact (ih h).trans (Nat.le_succ _)
    | false =>
      rw [parseOperand] at h
      split at h
      · cases h
        exact le_rfl
      split at h
      · exact (ih h).trans (Nat.le_succ _)
      split at h
      · cases h
        exact le_rfl
      · exact (ih h).trans (Nat.le_succ _)

/-- The loop over the operands in `parse_opcode`. -/
def parseOperands (ops : EpdOps) (opcode : List Char) : List Char → Option (EpdOps × List Char)
  | [] => none
  | c :: p =>
    if c = nul then some (ops, c :: p)
    else
      match _h : parseOperand false [] (c :: p) with
      | none => none
      | some (_, []) => none
      | some (operand, d :: q) =>
        if d = ' ' then parseOperands (pushOperand ops opcode operand) opcode q
        else some (pushOperand ops opcode operand, d :: q)
termination_by p => p.length
decreasing_by
  have := parseOperand_length _h
  simp only [List.length_cons] at *
  omega

/-- `parse_opcode(p)` -/
def parseOpcode (ops : EpdOps) : List Char → List Char → Option (EpdOps × List Char)
  | _, [] => none
  | opcode, c :: p =>
    if c = nul then some (ops, c :: p)
    else if c = ';' then some (Function.update ops opcode (some []), c :: p)
    else if c = ' ' then parseOperands (Function.update ops opcode (some [])) opcode p
    else parseOpcode ops (opcode ++ [c]) p

theorem parseOperands_length {ops ops' : EpdOps} {opcode p q : List Char}
    (h : parseOperands ops opcode p = some (ops', q)) : q.length ≤ p.length := by
  induction hn : p.length using Nat.strong_induction_on generalizing ops p with
  | _ n ih =>
    cases p with
    | nil =>
      rw [parseOperands] at h
      cases h
    | cons c p =>
      rw [parseOperands] at h
      split at h
      · cases h
        exact hn.le
      · split at h
        · cases h
        · cases h
        · rename_i hp
          have hlen := parseOperand_length hp
          simp only [List.length_cons] at hlen hn
          split at h
          · exact (ih _ (by omega) h rfl).trans (by omega)
          · cases h
            simp only [List.length_cons]
            omega

theorem parseOpcode_length {ops ops' : EpdOps} {opcode p q : List Char}
    (h : parseOpcode ops opcode p = some (ops', q)) : q.length ≤ p.length := by
  induction p generalizing opcode with
  | nil => cases h
  | cons c p ih =>
    rw [parseOpcode] at h
    split at h
    · cases h
      exact le_rfl
    split at h
    · cases h
      exact le_rfl
    split at h
    · exact (parseOperands_length h).trans (Nat.le_succ _)
    · exact (ih h).trans (Nat.le_succ _)

/-- The second loop of `parse`. -/
def parseOpcodes (ops : EpdOps) : List Char → Option EpdOps
  | [] => none
  | c :: p =>
    if c = nul then some ops
    else if c = ' ' then parseOpcodes ops p
    else
      match _h : parseOpcode ops [] (c :: p) with
      | none => none
      | some (ops, q) => parseOpcodes ops q.tail
termination_by p => p.length
decreasing_by
  · exact Nat.lt_succ_self _
  · have := parseOpcode_length ‹_›
    simp only [List.length_cons] at this
    simp only [List.length_tail, List.length_cons]
    omega

/-- `parse(p)` -/
def parse (p : List Char) : Option Epd := do
  let (e, p) ← parseFields .position empty p
  let ops ← parseOpcodes e.ops p
  return { e with ops := ops }

/-- The string without the newline at its end. -/
def line (s : List Char) : List Char :=
  if (cstr s).getLast? = some '\n' then (cstr s).dropLast else cstr s

/-- The copy, with a NUL in the place of the newline. -/
def buffer (s : List Char) : List Char :=
  line s ++ if (cstr s).getLast? = some '\n' then [nul, nul] else [nul]

/-- `EPD(s)`; of an empty string the character in front of the copy is looked at. -/
def construct (s : List Char) : Option Epd := if cstr s = [] then none else parse (buffer s)

/-! ## Staying inside -/

/-- Where the parsers are behind a piece of text. -/
inductive Place where
  | between
  | opcode
  | operand
  | quote
  deriving DecidableEq

def Place.next : Place → Char → Place
  | .between, c => if c = ' ' ∨ c = ';' then .between else .opcode
  | .opcode, c => if c = ';' then .between else if c = ' ' then .operand else .opcode
  | .operand, c => if c = ';' then .between else if c = '"' then .quote else .operand
  | .quote, c => if c = '"' then .operand else .quote

/-- How many NULs are read from there. -/
def Place.needs : Place → Nat
  | .between => 1
  | .opcode => 2
  | .operand => 2
  | .quote => 3

/-- What follows the four fields. -/
def afterFields : Field → List Char → List Char
  | _, [] => []
  | state, c :: s =>
    if c = ' ' then
      match state.next with
      | none => s
      | some state => afterFields state s
    else afterFields state s

/-- Where the parsers are at the end of a line. -/
def endPlace (s : List Char) : Place := (afterFields .position s).foldl Place.next .between

/-! ## Where the pointers go -/

/-- A text up to a NUL. -/
def NoNul (s : List Char) : Prop := ∀ c ∈ s, c ≠ nul

theorem NoNul.of_cons {c : Char} {s : List Char} (h : NoNul (c :: s)) : c ≠ nul ∧ NoNul s :=
  ⟨h c List.mem_cons_self, fun d hd => h d (List.mem_cons_of_mem c hd)⟩

theorem NoNul.of_append_right {s t : List Char} (h : NoNul (s ++ t)) : NoNul t :=
  fun c hc => h c (List.mem_append_right s hc)

section Pointers

variable {s m : List Char}

theorem parseFields_text (hs : NoNul s) (state : Field) (e : Epd) :
    ∃ e', parseFields state e (s ++ nul :: m) = some (e', afterFields state s ++ nul :: m) := by
  induction s generalizing state e with
  | nil => exact ⟨e, by rw [List.nil_append, parseFields, if_pos rfl]; rfl⟩
  | cons c s ih =>
    obtain ⟨hc, hs⟩ := hs.of_cons
    rw [List.cons_append, parseFields, if_neg hc, afterFields]
    by_cases hsp : c = ' '
    · rw [if_pos hsp, if_pos hsp]
      cases state.next with
      | none => exact ⟨e, rfl⟩
      | some state => exact ih hs state e
    · rw [if_neg hsp, if_neg hsp]
      exact ih hs state _

/-- The place that the flag stands for. -/
def placeOf (quoted : Bool) : Place := if quoted then .quote else .operand

/-- An operand ends with the text, or before a blank or semicolon outside of quotes. -/
theorem parseOperand_text (hs : NoNul s) (quoted : Bool) (operand : List Char) :
    (∃ t d u w, s = t ++ d :: u ∧ (d = ';' ∨ d = ' ') ∧
      t.foldl Place.next (placeOf quoted) = .operand ∧
      parseOperand quoted operand (s ++ nul :: m) = some (some w, d :: (u ++ nul :: m))) ∨
    (s.foldl Place.next (placeOf quoted) = .operand ∧
      parseOperand quoted operand (s ++ nul :: m) = some (none, nul :: m)) ∨
    ∃ w, s.foldl Place.next (placeOf quoted) = .quote ∧
      parseOperand quoted operand (s ++ nul :: m) = parseOperand false w m := by
  induction s generalizing quoted operand with
  | nil =>
    cases quoted with
    | true => exact Or.inr (Or.inr ⟨operand, rfl, by rw [List.nil_append, parseOperand, if_pos (Or.inl rfl)]⟩)
    | false => exact Or.inr (Or.inl ⟨rfl, by rw [List.nil_append, parseOperand, if_pos rfl]⟩)
  | cons c s ih =>
    obtain ⟨hc, hs⟩ := hs.of_cons
    have hnext : ∀ quoted' operand', Place.next (placeOf quoted) c = placeOf quoted' →
        parseOperand quoted operand (c :: (s ++ nul :: m)) =
          parseOperand quoted' operand' (s ++ nul :: m) →
        (∃ t d u w, c :: s = t ++ d :: u ∧ (d = ';' ∨ d = ' ') ∧
          t.foldl Place.next (placeOf quoted) = .operand ∧
          parseOperand quoted operand (c :: (s ++ nul :: m)) = some (some w, d :: (u ++ nul :: m))) ∨
        ((c :: s).foldl Place.next (placeOf quoted) = .operand ∧
          parseOperand quoted operand (c :: (s ++ nul :: m)) = some (none, nul :: m)) ∨
        ∃ w, (c :: s).foldl Place.next (placeOf quoted) = .quote ∧
          parseOperand quoted operand (c :: (s ++ nul :: m)) = parseOperand false w m := by
      intro quoted' operand' hplace hparse
      rw [hparse, List.foldl_cons, hplace]
      rcases ih hs quoted' operand' with ⟨t, d, u, w, rfl, hd, ht, hw⟩ | h | h
      · refine Or.inl ⟨c :: t, d, u, w, rfl, hd, ?_, hw⟩
        rw [List.foldl_cons, hplace, ht]
      · exact Or.inr (Or.inl h)
      · exact Or.inr (Or.inr h)
    rw [List.cons_append]
    cases quoted with
    | true =>
      by_cases hq : c = '"'
      · refine hnext false operand ?_ ?_
        · subst hq
          rfl
        · rw [parseOperand, if_pos (Or.inr hq)]
      · refine hnext true (operand ++ [c]) ?_ ?_
        · exact if_neg hq
        · rw [parseOperand, if_neg (not_or.mpr ⟨hc, hq⟩)]
    | false =>
      by_cases hq : c = '"'
      · refine hnext true operand ?_ ?_
        · subst hq
          rfl
        · rw [parseOperand, if_neg hc, if_pos hq]
      by_cases hend : c = ';' ∨ c = ' '
      · refine Or.inl ⟨[], c, s, operand, rfl, hend, rfl, ?_⟩
        rw [parseOperand, if_neg hc, if_neg hq, if_pos hend]
      · refine hnext false (operand ++ [c]) ?_ ?_
        · show (if c = ';' then _ else if c = '"' then _ else _) = _
          rw [if_neg (not_or.mp hend).1, if_neg hq]
          rfl
        · rw [parseOperand, if_neg hc, if_neg hq, if_neg hend]

end Pointers

/-- What is read behind a text. -/
def nuls (k : Nat) : List Char := List.replicate k nul

/-- Where a parser of operations hands back the pointer: at a semicolon of the text, at the
first NUL, or, if the text ends within quotes, at the second. -/
def Leaves (k : Nat) (start : Place) (s : List Char) (r : Option (EpdOps × List Char)) : Prop :=
  (∃ t u ops, s = t ++ ';' :: u ∧ (t ++ [';']).foldl Place.next start = .between ∧
    r = some (ops, ';' :: (u ++ nul :: nuls k))) ∨
  ((s.foldl Place.next start).needs = 2 ∧ ∃ ops, r = some (ops, nul :: nuls k)) ∨
  (s.foldl Place.next start = .quote ∧
    ((k = 0 ∧ r = none) ∨ ∃ ops, 0 < k ∧ r = some (ops, nuls k)))

section Leaving

variable {k : Nat} {s : List Char} {r : Option (EpdOps × List Char)}

theorem Leaves.append {t : List Char} {start : Place} (h : Leaves k (t.foldl Place.next start) s r) :
    Leaves k start (t ++ s) r := by
  rcases h with ⟨t', u, ops, rfl, ht, hr⟩ | h | h
  · refine Or.inl ⟨t ++ t', u, ops, by rw [List.append_assoc], ?_, hr⟩
    rwa [List.append_assoc, List.foldl_append]
  · refine Or.inr (Or.inl ?_)
    rwa [List.foldl_append]
  · refine Or.inr (Or.inr ?_)
    rwa [List.foldl_append]

theorem parseOperands_of_stop {ops : EpdOps} {opcode p q : List Char} {c d : Char}
    {r : Option (List Char)} (hc : c ≠ nul) (hd : d ≠ ' ')
    (h : parseOperand false [] (c :: p) = some (r, d :: q)) :
    parseOperands ops opcode (c :: p) = some (pushOperand ops opcode r, d :: q) := by
  rw [parseOperands, if_neg hc]
  split
  · rename_i h'
    rw [h] at h'
    cases h'
  · rename_i h'
    rw [h] at h'
    cases h'
  · rename_i h'
    rw [h] at h'
    cases h'
    rw [if_neg hd]

theorem parseOperands_of_blank {ops : EpdOps} {opcode p q : List Char} {c : Char}
    {r : Option (List Char)} (hc : c ≠ nul)
    (h : parseOperand false [] (c :: p) = some (r, ' ' :: q)) :
    parseOperands ops opcode (c :: p) = parseOperands (pushOperand ops opcode r) opcode q := by
  rw [parseOperands, if_neg hc]
  split
  · rename_i h'
    rw [h] at h'
    cases h'
  · rename_i h'
    rw [h] at h'
    cases h'
  · rename_i h'
    rw [h] at h'
    cases h'
    rw [if_pos rfl]

theorem parseOperands_of_none {ops : EpdOps} {opcode p : List Char} {c : Char} (hc : c ≠ nul)
    (h : parseOperand false [] (c :: p) = none) : parseOperands ops opcode (c :: p) = none := by
  rw [parseOperands, if_neg hc]
  split
  · rfl
  · rfl
  · rename_i h'
    rw [h] at h'
    cases h'

/-- The operands end at a semicolon, or where the text ends. -/
theorem parseOperands_leaves (hs : NoNul s) (ops : EpdOps) (opcode : List Char) :
    Leaves k .operand s (parseOperands ops opcode (s ++ nul :: nuls k)) := by
  induction hn : s.length using Nat.strong_induction_on generalizing s ops with
  | _ n ih =>
    cases s with
    | nil =>
      refine Or.inr (Or.inl ⟨rfl, ops, ?_⟩)
      rw [List.nil_append, parseOperands, if_pos rfl]
    | cons c s =>
      have hc := hs.of_cons.1
      rw [List.cons_append]
      rcases parseOperand_text (m := nuls k) hs false [] with
        ⟨t, d, u, w, htext, hd, ht, hp⟩ | ⟨hplace, hp⟩ | ⟨w, hplace, hp⟩
      · rw [List.cons_append] at hp
        have hu : NoNul (d :: u) := (htext ▸ hs).of_append_right
        rcases hd with rfl | rfl
        · refine Or.inl ⟨t, u, _, htext, ?_, parseOperands_of_stop hc (by decide) hp⟩
          have ht : t.foldl Place.next .operand = .operand := ht
          rw [List.foldl_append, ht]
          rfl
        · have hlen : u.length < n := by
            rw [← hn, htext]
            simp only [List.length_append, List.length_cons]
            omega
          have hrest := ih u.length hlen hu.of_cons.2 (pushOperand ops opcode (some w)) rfl
          rw [parseOperands_of_blank hc hp, htext, ← List.singleton_append, ← List.append_assoc]
          refine Leaves.append ?_
          have ht : t.foldl Place.next .operand = .operand := ht
          rw [List.foldl_append, ht]
          exact hrest
      · rw [List.cons_append] at hp
        refine Or.inr (Or.inl ⟨?_, ops, parseOperands_of_stop hc (by decide) hp⟩)
        have hplace : (c :: s).foldl Place.next .operand = .operand := hplace
        rw [hplace]
        rfl
      · rw [List.cons_append] at hp
        refine Or.inr (Or.inr ⟨hplace, ?_⟩)
        cases k with
        | zero => exact Or.inl ⟨rfl, parseOperands_of_none hc hp⟩
        | succ k =>
          have hstop : parseOperand false w (nuls (k + 1)) = some (none, nul :: nuls k) := by
            rw [nuls, List.replicate_succ, parseOperand, if_pos rfl]
            rfl
          exact Or.inr ⟨ops, Nat.succ_pos k, parseOperands_of_stop hc (by decide) (hp.trans hstop)⟩

theorem parseOpcode_leaves (hs : NoNul s) (ops : EpdOps) (opcode : List Char) :
    Leaves k .opcode s (parseOpcode ops opcode (s ++ nul :: nuls k)) := by
  induction s generalizing opcode with
  | nil =>
    refine Or.inr (Or.inl ⟨rfl, ops, ?_⟩)
    rw [List.nil_append, parseOpcode, if_pos rfl]
  | cons c s ih =>
    obtain ⟨hc, hrest⟩ := hs.of_cons
    rw [List.cons_append, parseOpcode, if_neg hc]
    by_cases hsemi : c = ';'
    · subst hsemi
      exact Or.inl ⟨[], s, _, rfl, rfl, if_pos rfl⟩
    rw [if_neg hsemi]
    by_cases hblank : c = ' '
    · subst hblank
      rw [if_pos rfl]
      exact Leaves.append (t := [' ']) (parseOperands_leaves hrest _ opcode)
    · rw [if_neg hblank]
      have hplace : Place.next .opcode c = .opcode := by
        show (if c = ';' then _ else if c = ' ' then _ else _) = _
        rw [if_neg hsemi, if_neg hblank]
      refine Leaves.append (t := [c]) ?_
      show Leaves k (Place.next .opcode c) s _
      rw [hplace]
      exact ih hrest _

theorem parseOpcodes_nuls (ops : EpdOps) (k : Nat) :
    (parseOpcodes ops (nuls k)).isSome = true ↔ 1 ≤ k := by
  cases k with
  | zero =>
    refine iff_of_false ?_ (by decide)
    rw [nuls, List.replicate_zero, parseOpcodes]
    exact Bool.false_ne_true
  | succ k =>
    refine iff_of_true ?_ (Nat.succ_le_succ (Nat.zero_le k))
    rw [nuls, List.replicate_succ, parseOpcodes, if_pos rfl]
    rfl

theorem parseOpcodes_step {ops : EpdOps} {c : Char} {p : List Char} (hc : c ≠ nul) (hb : c ≠ ' ') :
    parseOpcodes ops (c :: p) =
      (parseOpcode ops [] (c :: p)).bind fun r => parseOpcodes r.1 r.2.tail := by
  rw [parseOpcodes, if_neg hc, if_neg hb]
  split
  · rename_i h
    rw [h]
    rfl
  · rename_i h
    rw [h]
    rfl

/-- **The operations are read within the NULs that follow them** if there are as many as the
place needs where they end. -/
theorem parseOpcodes_isSome_iff (hs : NoNul s) (ops : EpdOps) :
    (parseOpcodes ops (s ++ nuls (k + 1))).isSome = true ↔
      (s.foldl Place.next .between).needs ≤ k + 1 := by
  induction hn : s.length using Nat.strong_induction_on generalizing s ops with
  | _ n ih =>
    cases s with
    | nil => exact parseOpcodes_nuls ops (k + 1)
    | cons c s =>
      have hc := hs.of_cons.1
      by_cases hblank : c = ' '
      · subst hblank
        rw [List.cons_append, parseOpcodes, if_neg hc, if_pos rfl]
        exact ih s.length (by rw [← hn]; exact Nat.lt_succ_self _) hs.of_cons.2 ops rfl
      · have hplace : (c :: s).foldl Place.next .between = (c :: s).foldl Place.next .opcode := by
          have hfirst : Place.next .between c = Place.next .opcode c := by
            show (if c = ' ' ∨ c = ';' then _ else _) = if c = ';' then _ else if c = ' ' then _ else _
            by_cases hsemi : c = ';'
            · rw [if_pos (Or.inr hsemi), if_pos hsemi]
            · rw [if_neg (not_or.mpr ⟨hblank, hsemi⟩), if_neg hsemi, if_neg hblank]
          rw [List.foldl_cons, hfirst, List.foldl_cons]
        rw [hplace, List.cons_append, parseOpcodes_step hc hblank, ← List.cons_append]
        rcases parseOpcode_leaves (k := k) hs ops [] with
          ⟨t, u, ops', htext, ht, hp⟩ | ⟨hneeds, ops', hp⟩ | ⟨hquote, ⟨rfl, hp⟩ | ⟨ops', hk, hp⟩⟩
        · have hp : parseOpcode ops [] (c :: s ++ nuls (k + 1)) =
              some (ops', ';' :: (u ++ nuls (k + 1))) := hp
          have hu : NoNul (';' :: u) := (htext ▸ hs).of_append_right
          have hlen : u.length < n := by
            rw [← hn, htext]
            simp only [List.length_append, List.length_cons]
            omega
          have hfold : (c :: s).foldl Place.next .opcode = u.foldl Place.next .between := by
            rw [htext, ← List.singleton_append, ← List.append_assoc, List.foldl_append, ht]
          rw [hp, hfold]
          exact ih u.length hlen hu.of_cons.2 ops' rfl
        · have hp : parseOpcode ops [] (c :: s ++ nuls (k + 1)) = some (ops', nul :: nuls k) := hp
          rw [hp, hneeds]
          exact (parseOpcodes_nuls ops' k).trans Nat.succ_le_succ_iff.symm
        · have hp : parseOpcode ops [] (c :: s ++ nuls (0 + 1)) = none := hp
          rw [hp, hquote]
          exact iff_of_false Bool.false_ne_true (by decide)
        · obtain ⟨j, rfl⟩ : ∃ j, k = j + 1 := ⟨k - 1, by omega⟩
          have hp : parseOpcode ops [] (c :: s ++ nuls (j + 1 + 1)) = some (ops', nul :: nuls j) := hp
          rw [hp, hquote]
          refine (parseOpcodes_nuls ops' j).trans ?_
          show 1 ≤ j ↔ 3 ≤ j + 1 + 1
          omega

end Leaving

/-! ## Strings that are safe -/

/-- No character behind the NUL that ends the line is read, and none in front of it. -/
def StaysInString (s : List Char) : Prop := cstr s ≠ [] ∧ (parse (line s ++ [nul])).isSome = true

/-- No character outside of the copy is read or written. -/
def StaysInBuffer (s : List Char) : Prop := (construct s).isSome = true

theorem noNul_line (s : List Char) : NoNul (line s) := by
  have hstr : NoNul (cstr s) := by
    intro c hc
    have := List.mem_takeWhile_imp hc
    simpa using this
  unfold line
  split
  · exact fun c hc => hstr c (List.dropLast_subset _ hc)
  · exact hstr

theorem NoNul.afterFields {s : List Char} (hs : NoNul s) (state : Field) :
    NoNul (afterFields state s) := by
  induction s generalizing state with
  | nil => exact hs
  | cons c s ih =>
    have hs' := hs.of_cons.2
    unfold Epd.afterFields
    split
    · split
      · exact hs'
      · exact ih hs' _
    · exact ih hs' _

theorem parse_of_fields {p q : List Char} {e : Epd}
    (h : parseFields .position empty p = some (e, q)) :
    parse p = (parseOpcodes e.ops q).map fun ops => { e with ops := ops } := by
  unfold parse
  rw [h]
  simp only [Option.bind_eq_bind, Option.bind_some]
  cases parseOpcodes e.ops q <;> rfl

/-- **A line is parsed within the NULs that follow it** if there are as many as its end needs. -/
theorem parse_isSome_iff {s : List Char} (hs : NoNul s) (k : Nat) :
    (parse (s ++ nuls (k + 1))).isSome = true ↔ (endPlace s).needs ≤ k + 1 := by
  obtain ⟨e, he⟩ := parseFields_text (m := nuls k) hs .position empty
  have hfields : parseFields .position empty (s ++ nuls (k + 1)) =
      some (e, afterFields .position s ++ nuls (k + 1)) := he
  rw [endPlace, ← parseOpcodes_isSome_iff (hs.afterFields .position) e.ops,
    parse_of_fields hfields, Option.isSome_map]

theorem staysInString_iff (s : List Char) :
    StaysInString s ↔ cstr s ≠ [] ∧ endPlace (line s) = .between := by
  refine and_congr_right fun _ => (parse_isSome_iff (noNul_line s) 0).trans ?_
  cases endPlace (line s) <;> decide

theorem staysInBuffer_iff (s : List Char) :
    StaysInBuffer s ↔ cstr s ≠ [] ∧
      (endPlace (line s)).needs ≤ if (cstr s).getLast? = some '\n' then 2 else 1 := by
  unfold StaysInBuffer construct
  by_cases hne : cstr s = []
  · rw [if_pos hne]
    exact iff_of_false Bool.false_ne_true fun h => h.1 hne
  rw [if_neg hne, and_iff_right hne, buffer]
  split
  · exact parse_isSome_iff (noNul_line s) 1
  · exact parse_isSome_iff (noNul_line s) 0

/-- **When the parser stays inside**, of the string and of its copy. -/
theorem epd_stays_iff (s : List Char) :
    (StaysInString s ↔ cstr s ≠ [] ∧ endPlace (line s) = .between) ∧
      (StaysInBuffer s ↔ cstr s ≠ [] ∧
        (endPlace (line s)).needs ≤ if (cstr s).getLast? = some '\n' then 2 else 1) :=
  ⟨staysInString_iff s, staysInBuffer_iff s⟩

/-- An empty string, an operation without a semicolon, and a quote that stays open. -/
theorem epd_leaves : (¬ StaysInString "".toList ∧ ¬ StaysInBuffer "".toList) ∧
    (¬ StaysInString "8/8 w - - bm e4".toList ∧ ¬ StaysInBuffer "8/8 w - - bm e4".toList) ∧
    ¬ StaysInString "8/8 w - - id \"x\n".toList ∧
      ¬ StaysInBuffer "8/8 w - - id \"x\n".toList := by
  simp only [staysInString_iff, staysInBuffer_iff]
  decide

end Epd

end HoiChess
