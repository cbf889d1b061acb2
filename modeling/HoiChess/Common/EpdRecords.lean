import Mathlib.Data.List.Induction
import HoiChess.Common.Epd

/-!
# EPD records are read back

A record is four fields and operations; an operand is plain or quoted.  Each parser takes its
piece of the record and leaves the pointer at the character that ends it, and so the fields and
the operands of every opcode are found again (`Record.construct_text`), unless the opcode in
front of operands is empty.
-/

namespace HoiChess

open Stdio

namespace Epd

/-- A field is not empty and has no blanks. -/
structure FieldText where
  text : List Char
  ne_nil : text ≠ []
  chars : ∀ c ∈ text, c ≠ ' ' ∧ c ≠ nul

inductive Operand where
  | plain (s : List Char) (ne_nil : s ≠ []) (chars : ∀ c ∈ s, (c ≠ ';' ∧ c ≠ ' ') ∧ c ≠ '"' ∧ c ≠ nul)
  | quoted (s : List Char) (chars : ∀ c ∈ s, c ≠ nul ∧ c ≠ '"')

def Operand.value : Operand → List Char
  | .plain s _ _ => s
  | .quoted s _ => s

def Operand.text : Operand → List Char
  | .plain s _ _ => s
  | .quoted s _ => '"' :: (s ++ ['"'])

structure Operation where
  opcode : List Char
  operands : List Operand
  chars : ∀ c ∈ opcode, c ≠ ' ' ∧ c ≠ ';' ∧ c ≠ nul

namespace Operation

variable (op : Operation)

def values : List (List Char) := op.operands.map Operand.value

/-- `opcode;` or `opcode operand .. operand;` -/
def text : List Char := op.opcode ++ (op.operands.flatMap fun o => ' ' :: o.text) ++ [';']

/-- Operands have an opcode. -/
def Named : Prop := op.operands ≠ [] → op.opcode ≠ []

end Operation

structure Record where
  position : FieldText
  color : FieldText
  castling : FieldText
  ep : FieldText
  operations : List Operation

namespace Record

variable (r : Record)

def text : List Char :=
  r.position.text ++ ' ' :: (r.color.text ++ ' ' :: (r.castling.text ++ ' ' :: (r.ep.text ++ ' ' ::
    [' '].intercalate (r.operations.map Operation.text))))

/-- The operands of the last operation with the opcode. -/
def operandsOf (opcode : List Char) : Option (List (List Char)) :=
  (r.operations.filter fun op => op.opcode = opcode).getLast?.map Operation.values

/-- The record as it is read. -/
def epd : Epd := ⟨r.position.text, r.color.text, r.castling.text, r.ep.text, r.operandsOf⟩

end Record

/-! ## Fields -/

def addText (e : Epd) (s : List Char) : Field → Epd
  | .position => { e with fenPosition := e.fenPosition ++ s }
  | .color => { e with fenColor := e.fenColor ++ s }
  | .castling => { e with fenCastling := e.fenCastling ++ s }
  | .ep => { e with fenEp := e.fenEp ++ s }

theorem addText_nil (e : Epd) (state : Field) : e.addText [] state = e := by
  cases state <;> simp [addText]

theorem addText_cons (e : Epd) (c : Char) (s : List Char) (state : Field) :
    (e.addChar c state).addText s state = e.addText (c :: s) state := by
  cases state <;> simp [addText, addChar]

theorem parseFields_field {s : List Char} (hs : ∀ c ∈ s, c ≠ ' ' ∧ c ≠ nul) (state : Field)
    (e : Epd) (p : List Char) : parseFields state e (s ++ ' ' :: p) =
      match state.next with
      | none => some (e.addText s state, p)
      | some state' => parseFields state' (e.addText s state) p := by
  induction s generalizing e with
  | nil =>
    have hblank : parseFields state e (' ' :: p) =
        match state.next with
        | none => some (e, p)
        | some state' => parseFields state' e p := by
      cases state <;> rfl
    rw [List.nil_append, addText_nil]
    exact hblank
  | cons c s ih =>
    obtain ⟨hc, hs⟩ := List.forall_mem_cons.mp hs
    rw [List.cons_append, parseFields, if_neg hc.2, if_neg hc.1, ih hs, addText_cons]

/-! ## Operands -/

section Operands

variable {s p : List Char} {d : Char} (hd : d = ';' ∨ d = ' ')

include hd

theorem parseOperand_stop (operand : List Char) :
    parseOperand false operand (d :: p) = some (some operand, d :: p) := by
  rcases hd with rfl | rfl <;> rfl

theorem parseOperand_plain (hs : ∀ c ∈ s, (c ≠ ';' ∧ c ≠ ' ') ∧ c ≠ '"' ∧ c ≠ nul)
    (operand : List Char) :
    parseOperand false operand (s ++ d :: p) = some (some (operand ++ s), d :: p) := by
  induction s generalizing operand with
  | nil =>
    rw [List.append_nil]
    exact parseOperand_stop hd operand
  | cons c s ih =>
    obtain ⟨⟨hstop, hquote, hnul⟩, hs⟩ := List.forall_mem_cons.mp hs
    rw [List.cons_append, parseOperand, if_neg hnul, if_neg hquote, if_neg (not_or.mpr hstop), ih hs,
      List.append_assoc]
    rfl

theorem parseOperand_quoted (hs : ∀ c ∈ s, c ≠ nul ∧ c ≠ '"') (operand : List Char) :
    parseOperand true operand (s ++ '"' :: d :: p) = some (some (operand ++ s), d :: p) := by
  induction s generalizing operand with
  | nil =>
    rw [List.nil_append, List.append_nil, parseOperand, if_pos (Or.inr rfl)]
    exact parseOperand_stop hd operand
  | cons c s ih =>
    obtain ⟨hc, hs⟩ := List.forall_mem_cons.mp hs
    rw [List.cons_append, parseOperand, if_neg (not_or.mpr hc), ih hs, List.append_assoc]
    rfl

/-- An operand is read up to the character that ends it. -/
theorem Operand.parse (o : Operand) :
    parseOperand false [] (o.text ++ d :: p) = some (some o.value, d :: p) := by
  cases o with
  | plain s hne hs => exact parseOperand_plain hd hs []
  | quoted s hs =>
    show parseOperand false [] ('"' :: (s ++ ['"'] ++ d :: p)) = _
    rw [List.append_assoc, parseOperand, if_neg (by decide), if_pos rfl]
    exact parseOperand_quoted hd hs []

end Operands

theorem Operand.exists_cons (o : Operand) : ∃ c s, o.text = c :: s ∧ c ≠ nul := by
  cases o with
  | plain s hne hs =>
    cases s with
    | nil => exact absurd rfl hne
    | cons c s => exact ⟨c, s, rfl, (hs c List.mem_cons_self).2.2⟩
  | quoted s hs => exact ⟨_, _, rfl, by decide⟩

theorem pushOperand_update (ops : EpdOps) (opcode : List Char) (l : List (List Char))
    (w : List Char) : pushOperand (Function.update ops opcode (some l)) opcode (some w) =
      Function.update ops opcode (some (l ++ [w])) := by
  rw [pushOperand, Function.update_self, Function.update_idem]
  rfl

/-- The operands of an operation are read up to its semicolon. -/
theorem parseOperands_text (ops : EpdOps) (opcode : List Char) (l : List (List Char)) (o : Operand)
    (os : List Operand) (p : List Char) :
    parseOperands (Function.update ops opcode (some l)) opcode
        (o.text ++ ((os.flatMap fun o => ' ' :: o.text) ++ ';' :: p)) =
      some (Function.update ops opcode (some (l ++ (o :: os).map Operand.value)), ';' :: p) := by
  induction os generalizing l o with
  | nil =>
    have hp := o.parse (d := ';') (p := p) (Or.inl rfl)
    obtain ⟨c, s, htext, hc⟩ := o.exists_cons
    rw [htext] at hp ⊢
    rw [List.flatMap_nil, List.nil_append]
    refine (parseOperands_of_stop hc (by decide) hp).trans ?_
    rw [pushOperand_update]
    rfl
  | cons o' os ih =>
    have hp := o.parse (d := ' ') (p := o'.text ++ ((os.flatMap fun o => ' ' :: o.text) ++ ';' :: p))
      (Or.inr rfl)
    obtain ⟨c, s, htext, hc⟩ := o.exists_cons
    rw [htext] at hp ⊢
    rw [List.flatMap_cons, List.append_assoc]
    refine (parseOperands_of_blank hc hp).trans ?_
    rw [pushOperand_update, ih, List.append_assoc]
    rfl

/-! ## Operations -/

theorem parseOpcode_text {s : List Char} (hs : ∀ c ∈ s, c ≠ ' ' ∧ c ≠ ';' ∧ c ≠ nul) (ops : EpdOps)
    (opcode p : List Char) : parseOpcode ops opcode (s ++ p) = parseOpcode ops (opcode ++ s) p := by
  induction s generalizing opcode with
  | nil => rw [List.nil_append, List.append_nil]
  | cons c s ih =>
    obtain ⟨⟨hblank, hsemi, hnul⟩, hs⟩ := List.forall_mem_cons.mp hs
    rw [List.cons_append, parseOpcode, if_neg hnul, if_neg hsemi, if_neg hblank, ih hs,
      List.append_assoc]
    rfl

/-- An operation is read up to its semicolon. -/
theorem Operation.parse (op : Operation) (ops : EpdOps) (p : List Char) :
    parseOpcode ops [] (op.text ++ p) =
      some (Function.update ops op.opcode (some op.values), ';' :: p) := by
  rw [Operation.text, List.append_assoc, List.append_assoc, parseOpcode_text op.chars]
  unfold Operation.values
  cases op.operands with
  | nil => rfl
  | cons o os =>
    show parseOpcode ops op.opcode (' ' :: (o.text ++ (os.flatMap fun o => ' ' :: o.text)) ++
      (';' :: p)) = _
    rw [List.cons_append, parseOpcode, if_neg (by decide), if_neg (by decide), if_pos rfl,
      List.append_assoc, parseOperands_text]
    rfl

theorem Operation.Named.exists_cons {op : Operation} (h : op.Named) :
    ∃ c s, op.text = c :: s ∧ c ≠ nul ∧ c ≠ ' ' := by
  obtain ⟨opcode, operands, hchars⟩ := op
  cases opcode with
  | nil =>
    cases operands with
    | nil => exact ⟨';', [], rfl, by decide, by decide⟩
    | cons o os => exact absurd rfl (h (List.cons_ne_nil o os))
  | cons c s =>
    obtain ⟨hblank, _, hnul⟩ := hchars c List.mem_cons_self
    exact ⟨c, _, rfl, hnul, hblank⟩

theorem parseOpcodes_operation {op : Operation} (h : op.Named) (ops : EpdOps) (p : List Char) :
    parseOpcodes ops (op.text ++ p) =
      parseOpcodes (Function.update ops op.opcode (some op.values)) p := by
  have hp := op.parse ops p
  obtain ⟨c, s, htext, hnul, hblank⟩ := h.exists_cons
  rw [htext] at hp ⊢
  rw [List.cons_append] at hp ⊢
  rw [parseOpcodes_step hnul hblank, hp]
  rfl

/-- `ops[opcode]` behind an operation. -/
def storeOperation (ops : EpdOps) (op : Operation) : EpdOps :=
  Function.update ops op.opcode (some op.values)

/-- **The operations are read one after the other.** -/
theorem parseOpcodes_operations {l : List Operation} (h : ∀ op ∈ l, op.Named) (ops : EpdOps) :
    parseOpcodes ops ([' '].intercalate (l.map Operation.text) ++ [nul]) =
      some (l.foldl storeOperation ops) := by
  induction l generalizing ops with
  | nil =>
    rw [List.map_nil, List.intercalate_nil, List.nil_append, parseOpcodes, if_pos rfl]
    rfl
  | cons op l ih =>
    obtain ⟨hop, hl⟩ := List.forall_mem_cons.mp h
    cases l with
    | nil =>
      rw [List.map_singleton, List.intercalate_singleton, parseOpcodes_operation hop, parseOpcodes,
        if_pos rfl]
      rfl
    | cons op' l =>
      have hblank : ∀ ops p, parseOpcodes ops (' ' :: p) = parseOpcodes ops p := by
        intro ops p
        rw [parseOpcodes, if_neg (by decide), if_pos rfl]
      have hrest := ih hl (storeOperation ops op)
      rw [List.map_cons, List.map_cons, List.intercalate_cons_cons, List.append_assoc,
        List.append_assoc, parseOpcodes_operation hop]
      rw [List.map_cons] at hrest
      exact (hblank _ _).trans hrest

theorem storeOperations_apply (l : List Operation) (opcode : List Char) :
    l.foldl storeOperation (fun _ => none) opcode =
      (l.filter fun op => op.opcode = opcode).getLast?.map Operation.values := by
  induction l using List.reverseRecOn with
  | nil => rfl
  | append_singleton l op ih =>
    rw [List.foldl_append, List.foldl_cons, List.foldl_nil, storeOperation, List.filter_append]
    by_cases h : op.opcode = opcode
    · rw [← h, Function.update_self]
      simp
    · rw [Function.update_of_ne (Ne.symm h), ih]
      simp [h]

/-! ## Records -/

theorem Operation.noNul_text (op : Operation) : NoNul op.text := by
  have hoperand : ∀ o : Operand, NoNul o.text := by
    intro o c hc
    cases o with
    | plain s _ hs => exact (hs c hc).2.2
    | quoted s hs =>
      rcases List.mem_cons.mp hc with rfl | hc
      · decide
      rcases List.mem_append.mp hc with hc | hc
      · exact (hs c hc).1
      · rw [List.mem_singleton.mp hc]
        decide
  intro c hc
  rcases List.mem_append.mp hc with hc | hc
  · rcases List.mem_append.mp hc with hc | hc
    · exact (op.chars c hc).2.2
    · obtain ⟨o, _, hc⟩ := List.mem_flatMap.mp hc
      rcases List.mem_cons.mp hc with rfl | hc
      · decide
      · exact hoperand o c hc
  · rw [List.mem_singleton.mp hc]
    decide

/-- Operations have no NUL and end with a semicolon. -/
theorem operations_text (l : List Operation) :
    NoNul ([' '].intercalate (l.map Operation.text)) ∧
      (l ≠ [] → ([' '].intercalate (l.map Operation.text)).getLast? = some ';') := by
  induction l with
  | nil => exact ⟨fun c hc => (List.not_mem_nil hc).elim, fun h => absurd rfl h⟩
  | cons op l ih =>
    cases l with
    | nil =>
      rw [List.map_singleton, List.intercalate_singleton]
      exact ⟨op.noNul_text, fun _ => List.getLast?_concat⟩
    | cons op' l =>
      obtain ⟨hnul, hlast⟩ := ih
      rw [List.map_cons, List.map_cons, List.intercalate_cons_cons]
      rw [List.map_cons] at hnul hlast
      constructor
      · intro c hc
        rcases List.mem_append.mp hc with hc | hc
        · rcases List.mem_append.mp hc with hc | hc
          · exact op.noNul_text c hc
          · rw [List.mem_singleton.mp hc]
            decide
        · exact hnul c hc
      · intro _
        rw [List.getLast?_append, hlast (List.cons_ne_nil op' l)]
        rfl

namespace Record

variable (r : Record)

theorem noNul_text : NoNul r.text := by
  have hfield : ∀ (f : FieldText) {s : List Char}, NoNul s → NoNul (f.text ++ ' ' :: s) := by
    intro f s hs c hc
    rcases List.mem_append.mp hc with hc | hc
    · exact (f.chars c hc).2
    rcases List.mem_cons.mp hc with rfl | hc
    · decide
    · exact hs c hc
  exact hfield _ (hfield _ (hfield _ (hfield _ (operations_text r.operations).1)))

theorem last_text : r.text.getLast? ≠ some '\n' := by
  have hfield : ∀ (s t : List Char), (s ++ ' ' :: t).getLast? = (' ' :: t).getLast? := by
    intro s t
    rw [List.getLast?_append, List.getLast?_eq_some_getLast (List.cons_ne_nil ' ' t)]
    rfl
  have htail : ∀ (t : List Char) (c : Char), t.getLast? = some c → (' ' :: t).getLast? = some c := by
    intro t c h
    rw [List.getLast?_cons, h]
    rfl
  have hfour : ∀ c, (' ' :: [' '].intercalate (r.operations.map Operation.text)).getLast? = some c →
      r.text.getLast? = some c := by
    intro c h
    rw [text, hfield]
    refine htail _ _ ?_
    rw [hfield]
    refine htail _ _ ?_
    rw [hfield]
    refine htail _ _ ?_
    rw [hfield]
    exact h
  by_cases hops : r.operations = []
  · rw [hfour ' ' (by rw [hops]; rfl)]
    decide
  · rw [hfour ';' (htail _ _ ((operations_text r.operations).2 hops))]
    decide

theorem text_ne_nil : r.text ≠ [] := by
  intro h
  exact r.position.ne_nil (List.append_eq_nil_iff.mp h).1

theorem construct_text_eq : construct r.text = parse (r.text ++ [nul]) := by
  have hstr : cstr r.text = r.text := cstr_eq_self r.noNul_text
  rw [construct, buffer, line, hstr, if_neg r.text_ne_nil, if_neg r.last_text, if_neg r.last_text]

theorem parseFields_text (p : List Char) :
    parseFields .position empty (r.text ++ p) =
      some (⟨r.position.text, r.color.text, r.castling.text, r.ep.text, fun _ => none⟩,
        [' '].intercalate (r.operations.map Operation.text) ++ p) := by
  simp only [text, List.append_assoc, List.cons_append, parseFields_field (FieldText.chars _),
    Field.next]
  rfl

/-- **A record is read back.** -/
theorem construct_text (h : ∀ op ∈ r.operations, op.Named) : construct r.text = some r.epd := by
  rw [construct_text_eq, parse_of_fields (r.parseFields_text [nul]), parseOpcodes_operations h,
    Option.map_some]
  exact congrArg (fun ops => some (Epd.mk _ _ _ _ ops)) (funext (storeOperations_apply r.operations))

end Record

/-- Four fields of one letter. -/
def sampleField : FieldText := ⟨['-'], by decide, by decide⟩

/-- `bm e4; id "a; b" 7;` -/
def sampleRecord : Record where
  position := sampleField
  color := sampleField
  castling := sampleField
  ep := sampleField
  operations := [⟨"bm".toList, [.plain "e4".toList (by decide) (by decide)], by decide⟩,
    ⟨"id".toList, [.quoted "a; b".toList (by decide), .plain "7".toList (by decide) (by decide)],
      by decide⟩]

theorem construct_sampleRecord : construct sampleRecord.text = some sampleRecord.epd := by
  refine sampleRecord.construct_text fun op hop => ?_
  have hnamed : ∀ s ∈ sampleRecord.operations.map Operation.opcode, s ≠ [] := by decide
  exact fun _ => hnamed _ (List.mem_map_of_mem hop)

/-- An operand without an opcode. -/
def namelessRecord : Record where
  position := sampleField
  color := sampleField
  castling := sampleField
  ep := sampleField
  operations := [⟨[], [.plain "12".toList (by decide) (by decide)], by decide⟩]

/-- It is read as an opcode. -/
theorem construct_namelessRecord : construct namelessRecord.text ≠ some namelessRecord.epd := by
  have hread : construct namelessRecord.text = some ⟨['-'], ['-'], ['-'], ['-'],
      Function.update (fun _ => none) "12".toList (some [])⟩ := by
    have hops : ∀ ops, parseOpcodes ops (" 12;".toList ++ [nul]) =
        some (Function.update ops "12".toList (some [])) := by
      intro ops
      have hnamed : (Operation.mk "12".toList [] (by decide)).Named := fun _ => by decide
      have hblank : parseOpcodes ops (" 12;".toList ++ [nul]) =
          parseOpcodes ops ("12;".toList ++ [nul]) := by
        show parseOpcodes ops (' ' :: _) = _
        rw [parseOpcodes, if_neg (by decide), if_pos rfl]
        rfl
      refine hblank.trans ((parseOpcodes_operation hnamed ops [nul]).trans ?_)
      rw [parseOpcodes, if_pos rfl]
      rfl
    rw [Record.construct_text_eq, parse_of_fields (namelessRecord.parseFields_text [nul])]
    exact congrArg (Option.map _) (hops _)
  rw [hread]
  intro h
  have hops := congrFun (congrArg Epd.ops (Option.some.inj h)) []
  cases hops

end Epd

end HoiChess
