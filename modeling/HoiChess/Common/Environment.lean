import Mathlib.Data.List.TakeWhile
import HoiChess.Lib.StdString

/-!
# Environment variables in commands

`exec_command` looks for a dollar sign, takes the letters, digits and underscores behind it for
a name, and puts the value in its place.  Where the name is unknown, it goes on from the old
position by the length of the variable, so it may find the same sign again; but it never
gets past the variable (`OnePass.unknown`), and the result is that of one pass
(`expand_eq_substitute`).
-/

namespace HoiChess

open StdString

namespace Shell

def varchars : List Char :=
  "ABCDEFGHIJKLMNOPQRSTUVWXYZabcdefghijklmnopqrstuvwxyz0123456789_".toList

def isVarchar (c : Char) : Bool := varchars.contains c

/-- The strings that there are. -/
structure CxxString where
  chars : List Char
  fits : chars.length ≤ maxSize

/-- No variable has an empty name. -/
structure Environment where
  getenv : List Char → Option CxxString
  nameless : getenv [] = none

variable (env : Environment)

/-- The loop over one argument, for so many rounds; `none` is that it goes on.  The branch for
`%` belongs to another system. -/
def expandLoop : Nat → Nat → List Char → Option (Except Thrown (List Char))
  | 0, _, _ => none
  | n + 1, pos, it =>
    let vbegin := find (fun c => c = '$') it pos
    if vbegin = npos then some (.ok it)
    else
      let vend := find (fun c => !isVarchar c) it (sizeAdd vbegin 1)
      let len := sizeSub vend vbegin
      match substr it (sizeAdd vbegin 1) (sizeSub (sizeSub vend vbegin) 1) with
      | .error e => some (.error e)
      | .ok var =>
        match env.getenv var with
        | some val =>
          match replace it vbegin len val.chars with
          | .error e => some (.error e)
          | .ok it => expandLoop n (sizeAdd vbegin val.chars.length) it
        | none => expandLoop n (sizeAdd pos len) it

/-- One pass from left to right. -/
def substitute : List Char → List Char
  | [] => []
  | c :: cs =>
    if c = '$' then
      match env.getenv (cs.takeWhile isVarchar) with
      | some val => val.chars ++ substitute (cs.dropWhile isVarchar)
      | none => '$' :: (cs.takeWhile isVarchar ++ substitute (cs.dropWhile isVarchar))
    else c :: substitute cs
termination_by s => s.length
decreasing_by
  · exact Nat.lt_succ_of_le (List.dropWhile_suffix isVarchar).length_le
  · exact Nat.lt_succ_of_le (List.dropWhile_suffix isVarchar).length_le
  · exact Nat.lt_succ_self _

/-- Whenever a value has been put in, the argument is no longer than a string can be; so many
characters stand before the text. -/
def stagesFit : Nat → List Char → Bool
  | _, [] => true
  | k, c :: cs =>
    if c = '$' then
      match env.getenv (cs.takeWhile isVarchar) with
      | some val => decide (k + val.chars.length + (cs.dropWhile isVarchar).length ≤ maxSize) &&
          stagesFit (k + val.chars.length) (cs.dropWhile isVarchar)
      | none => stagesFit (k + 1 + (cs.takeWhile isVarchar).length) (cs.dropWhile isVarchar)
    else stagesFit (k + 1) cs
termination_by _ s => s.length
decreasing_by
  · exact Nat.lt_succ_of_le (List.dropWhile_suffix isVarchar).length_le
  · exact Nat.lt_succ_of_le (List.dropWhile_suffix isVarchar).length_le
  · exact Nat.lt_succ_self _

/-! ## One pass -/

theorem dollar_not_varchar : isVarchar '$' = false := by decide

section Pass

variable {env} {pre name rest : List Char}

variable (env) in
/-- Text without dollar signs stays. -/
theorem pass_plain (hpre : '$' ∉ pre) (k : Nat) (t : List Char) :
    substitute env (pre ++ t) = pre ++ substitute env t ∧
      stagesFit env k (pre ++ t) = stagesFit env (k + pre.length) t := by
  induction pre generalizing k with
  | nil => exact ⟨rfl, rfl⟩
  | cons c pre ih =>
    obtain ⟨hc, hpre⟩ := not_or.mp fun h => hpre (List.mem_cons.mpr h)
    have hc : c ≠ '$' := Ne.symm hc
    obtain ⟨hsub, hfit⟩ := ih hpre (k + 1)
    rw [List.cons_append, substitute, if_neg hc, hsub, stagesFit, if_neg hc, hfit, List.length_cons]
    exact ⟨rfl, congrArg (fun k => stagesFit env k t) (by omega)⟩

variable (hname : ∀ c ∈ name, isVarchar c = true) (hrest : ∀ c ∈ rest.head?, isVarchar c = false)

include hname hrest

/-- The longest name behind a dollar sign. -/
theorem takeWhile_name : (name ++ rest).takeWhile isVarchar = name ∧
    (name ++ rest).dropWhile isVarchar = rest := by
  rw [List.takeWhile_append_of_pos hname, List.dropWhile_append_of_pos hname]
  cases rest with
  | nil => exact ⟨List.append_nil name, rfl⟩
  | cons c rest =>
    have hc : ¬ isVarchar c = true := by rw [hrest c rfl]; exact Bool.false_ne_true
    rw [List.takeWhile_cons_of_neg hc, List.dropWhile_cons_of_neg hc, List.append_nil]
    exact ⟨rfl, rfl⟩

theorem pass_defined {val : CxxString} (hval : env.getenv name = some val) (k : Nat) :
    substitute env ('$' :: (name ++ rest)) = val.chars ++ substitute env rest ∧
      stagesFit env k ('$' :: (name ++ rest)) =
        (decide (k + val.chars.length + rest.length ≤ maxSize) &&
          stagesFit env (k + val.chars.length) rest) := by
  obtain ⟨htake, hdrop⟩ := takeWhile_name hname hrest
  rw [substitute, if_pos rfl, stagesFit, if_pos rfl, htake, hdrop, hval]
  exact ⟨rfl, rfl⟩

/-- An unknown variable stays, and the pass can be resumed anywhere up to its end. -/
theorem pass_unknown (hnone : env.getenv name = none) (hpre : '$' ∉ pre) {j : Nat}
    (hj : j ≤ pre.length + 1 + name.length) (k : Nat) :
    substitute env (pre ++ '$' :: (name ++ rest)) = (pre ++ '$' :: (name ++ rest)).take j ++
        substitute env ((pre ++ '$' :: (name ++ rest)).drop j) ∧
      stagesFit env k (pre ++ '$' :: (name ++ rest)) =
        stagesFit env (k + j) ((pre ++ '$' :: (name ++ rest)).drop j) := by
  obtain ⟨htake, hdrop⟩ := takeWhile_name hname hrest
  have hvar : substitute env ('$' :: (name ++ rest)) = '$' :: (name ++ substitute env rest) ∧
      ∀ k, stagesFit env k ('$' :: (name ++ rest)) = stagesFit env (k + 1 + name.length) rest := by
    refine ⟨?_, fun k => ?_⟩
    · rw [substitute, if_pos rfl, htake, hdrop, hnone]
    · rw [stagesFit, if_pos rfl, htake, hdrop, hnone]
  have hplain := pass_plain env hpre k ('$' :: (name ++ rest))
  rw [hplain.1, hplain.2, hvar.1, hvar.2]
  by_cases hle : j ≤ pre.length
  · have hback : '$' ∉ pre.drop j := fun h => hpre (List.mem_of_mem_drop h)
    have hmore := pass_plain env hback (k + j) ('$' :: (name ++ rest))
    rw [List.take_append_of_le_length hle, List.drop_append_of_le_length hle, hmore.1, hmore.2,
      hvar.1, hvar.2, ← List.append_assoc, List.take_append_drop, List.length_drop]
    exact ⟨rfl, congrArg (fun k => stagesFit env k rest) (by omega)⟩
  · obtain ⟨i, rfl⟩ : ∃ i, j = pre.length + (i + 1) := ⟨j - pre.length - 1, by omega⟩
    have hi : i ≤ name.length := by omega
    have hback : '$' ∉ name.drop i := by
      intro h
      have := hname _ (List.mem_of_mem_drop h)
      rw [dollar_not_varchar] at this
      cases this
    have hmore := pass_plain env hback (k + (pre.length + (i + 1))) rest
    rw [List.take_length_add_append, List.drop_length_add_append, List.take_succ_cons,
      List.drop_succ_cons, List.take_append_of_le_length hi, List.drop_append_of_le_length hi,
      hmore.1, hmore.2, List.length_drop]
    refine ⟨?_, congrArg (fun k => stagesFit env k rest) (by omega)⟩
    rw [List.append_assoc, List.cons_append, ← List.append_assoc (name.take i),
      List.take_append_drop]

end Pass

/-! ## The loop -/

section Loop

variable {env} {out pre name rest : List Char} {n : Nat}

theorem expandLoop_done {pos : Nat} {it : List Char}
    (h : find (fun c => c = '$') it pos = npos) : expandLoop env (n + 1) pos it = some (.ok it) := by
  rw [expandLoop, if_pos h]

/-- The name of a variable goes to the first character that is none of a name, or to the end. -/
theorem find_varEnd {front : List Char} (hname : ∀ c ∈ name, isVarchar c = true)
    (hrest : ∀ c ∈ rest.head?, isVarchar c = false) (hfits : front.length + name.length ≤ npos) :
    ∃ vend, vend ≤ npos ∧
      find (fun c => !isVarchar c) (front ++ (name ++ rest)) front.length = vend ∧
      (rest ≠ [] → vend = front.length + name.length) ∧ (rest = [] → vend = npos) := by
  cases rest with
  | nil =>
    have hmiss : find (fun c => !isVarchar c) (front ++ (name ++ [])) front.length = npos := by
      rw [List.append_nil]
      exact find_miss fun d hd => by rw [hname d hd]; rfl
    exact ⟨npos, le_rfl, hmiss, fun h => absurd rfl h, fun _ => rfl⟩
  | cons c rest =>
    have hhit : find (fun c => !isVarchar c) (front ++ (name ++ c :: rest)) front.length =
        front.length + name.length :=
      find_hit (fun d hd => by rw [hname d hd]; rfl) (by rw [hrest c rfl]; rfl)
    exact ⟨_, hfits, hhit, fun _ => rfl, fun h => by cases h⟩

variable (env n) in
/-- A variable is found, and cut out of the text. -/
theorem expandLoop_found (hpre : '$' ∉ pre) (hname : ∀ c ∈ name, isVarchar c = true)
    (hrest : ∀ c ∈ rest.head?, isVarchar c = false)
    (hfits : (out ++ (pre ++ '$' :: (name ++ rest))).length ≤ maxSize) :
    ∃ len, (rest ≠ [] → len = name.length + 1) ∧
      (rest = [] → len = npos - (out.length + pre.length)) ∧
      expandLoop env (n + 1) out.length (out ++ (pre ++ '$' :: (name ++ rest))) =
        match env.getenv name with
        | some val =>
          if maxSize < (out ++ pre ++ (val.chars ++ rest)).length then some (.error .length)
          else expandLoop env n (out ++ pre ++ val.chars).length (out ++ pre ++ (val.chars ++ rest))
        | none => expandLoop env n (sizeAdd out.length len) (out ++ (pre ++ '$' :: (name ++ rest))) := by
  simp only [List.length_append, List.length_cons] at hfits
  have hmax : maxSize < npos := by decide
  have hnpos : npos + npos < 2 * 2 ^ 64 := by decide
  have hhalf : maxSize + maxSize < npos := by decide
  have hbegin : find (fun c => c = '$') (out ++ (pre ++ '$' :: (name ++ rest))) out.length =
      out.length + pre.length :=
    find_hit (fun d hd => decide_eq_false fun e => hpre (e ▸ hd)) (decide_eq_true rfl)
  have hat : (out ++ pre ++ ['$']).length = out.length + pre.length + 1 := by
    simp only [List.length_append, List.length_cons, List.length_nil]
  have hadd : sizeAdd (out.length + pre.length) 1 = (out ++ pre ++ ['$']).length := by
    rw [sizeAdd_eq (by omega), hat]
  have htext : out ++ (pre ++ '$' :: (name ++ rest)) = out ++ pre ++ ['$'] ++ (name ++ rest) := by
    simp
  obtain ⟨vend, hvend, hfound, hend, hpast⟩ := find_varEnd hname hrest
    (show (out ++ pre ++ ['$']).length + name.length ≤ npos by omega)
  rw [hat] at hend
  rw [← hadd, ← htext] at hfound
  have hafter : out.length + pre.length + 1 + name.length ≤ vend := by
    by_cases hr : rest = []
    · rw [hpast hr]
      omega
    · exact (hend hr).ge
  have hlen : sizeSub vend (out.length + pre.length) = vend - (out.length + pre.length) :=
    sizeSub_eq (by omega) hvend
  have hvar : substr (out ++ (pre ++ '$' :: (name ++ rest))) (sizeAdd (out.length + pre.length) 1)
      (sizeSub (vend - (out.length + pre.length)) 1) = .ok name := by
    rw [hadd, sizeSub_eq (by omega) (by omega), htext]
    by_cases hr : rest = []
    · rw [hr, List.append_nil]
      exact substr_rest (by omega)
    · exact substr_append (by rw [hend hr]; omega)
  refine ⟨vend - (out.length + pre.length), fun hr => by rw [hend hr]; omega,
    fun hr => by rw [hpast hr], ?_⟩
  rw [expandLoop, hbegin, if_neg (by omega)]
  simp only [hfound, hlen, hvar]
  cases hval : env.getenv name with
  | none => rfl
  | some val =>
    have hcut : ('$' :: name ++ rest).drop (vend - (out.length + pre.length)) = rest := by
      by_cases hr : rest = []
      · rw [hr, List.append_nil]
        exact List.drop_eq_nil_of_le (by rw [List.length_cons]; omega)
      · rw [hend hr]
        exact List.drop_left' (by rw [List.length_cons]; omega)
    have hreplace : replace (out ++ pre ++ ('$' :: name ++ rest)) (out ++ pre).length
        (vend - (out.length + pre.length)) val.chars = _ := replace_append hcut
    have hwhole : out ++ pre ++ ('$' :: name ++ rest) = out ++ (pre ++ '$' :: (name ++ rest)) := by
      simp
    rw [hwhole, List.length_append] at hreplace
    simp only [hreplace]
    have hvalfits := val.fits
    by_cases hlong : maxSize < (out ++ pre ++ (val.chars ++ rest)).length
    · rw [if_pos hlong, if_pos hlong]
    · rw [if_neg hlong, if_neg hlong]
      dsimp only
      rw [sizeAdd_eq (by omega)]
      simp only [List.length_append]

/-- With so many rounds the loop makes of the text behind its position what one pass does. -/
def OnePass (env : Environment) (n : Nat) : Prop :=
  ∀ {out t : List Char}, (out ++ t).length ≤ maxSize → t.length < n →
    expandLoop env n out.length (out ++ t) =
      some (if stagesFit env out.length t then .ok (out ++ substitute env t) else .error .length)

section Variable

variable (ih : OnePass env n) (hpre : '$' ∉ pre) (hname : ∀ c ∈ name, isVarchar c = true)
  (hrest : ∀ c ∈ rest.head?, isVarchar c = false)
  (hfits : (out ++ (pre ++ '$' :: (name ++ rest))).length ≤ maxSize)
  (hn : (pre ++ '$' :: (name ++ rest)).length < n + 1)

include ih hpre hname hrest hfits hn

/-- A known variable is replaced, and the loop goes on behind its value. -/
theorem OnePass.defined {val : CxxString} (hval : env.getenv name = some val) :
    expandLoop env (n + 1) out.length (out ++ (pre ++ '$' :: (name ++ rest))) =
      some (if stagesFit env out.length (pre ++ '$' :: (name ++ rest)) then
        .ok (out ++ substitute env (pre ++ '$' :: (name ++ rest))) else .error .length) := by
  obtain ⟨len, _, _, hloop⟩ := expandLoop_found env n hpre hname hrest hfits
  obtain ⟨hsub, hfit⟩ := pass_plain env hpre out.length ('$' :: (name ++ rest))
  obtain ⟨hsub', hfit'⟩ := pass_defined hname hrest hval (out.length + pre.length)
  simp only [List.length_append, List.length_cons] at hfits hn
  rw [hloop, hval, hsub, hfit, hsub', hfit']
  dsimp only
  by_cases hlong : maxSize < (out ++ pre ++ (val.chars ++ rest)).length
  · rw [if_pos hlong]
    simp only [List.length_append] at hlong
    rw [decide_eq_false (by omega)]
    rfl
  · have hnext := @ih (out ++ pre ++ val.chars) rest
      (by rw [List.append_assoc (out ++ pre)]; exact not_lt.mp hlong) (by omega)
    rw [if_neg hlong, ← List.append_assoc (out ++ pre), hnext]
    simp only [List.length_append] at hlong ⊢
    rw [decide_eq_true (by omega), Bool.true_and]
    simp only [List.append_assoc]

/-- An unknown variable stays, and the loop goes on somewhere before its end. -/
theorem OnePass.unknown (hval : env.getenv name = none) :
    expandLoop env (n + 1) out.length (out ++ (pre ++ '$' :: (name ++ rest))) =
      some (if stagesFit env out.length (pre ++ '$' :: (name ++ rest)) then
        .ok (out ++ substitute env (pre ++ '$' :: (name ++ rest))) else .error .length) := by
  obtain ⟨len, hlen, hpast, hloop⟩ := expandLoop_found env n hpre hname hrest hfits
  have hmax : maxSize < npos := by decide
  have hhalf : maxSize + maxSize < npos := by decide
  rw [hloop, hval]
  dsimp only
  by_cases hr : rest = []
  · obtain ⟨hsub, hfit⟩ := pass_unknown hname hrest hval hpre le_rfl out.length
    have hall : (pre ++ '$' :: (name ++ rest)).length = pre.length + 1 + name.length := by
      rw [hr]
      simp only [List.append_nil, List.length_append, List.length_cons]
      omega
    rw [List.take_of_length_le hall.le, List.drop_eq_nil_of_le hall.le, substitute,
      List.append_nil] at hsub
    rw [List.drop_eq_nil_of_le hall.le, stagesFit] at hfit
    rw [hall] at hn
    rw [List.length_append, hall] at hfits
    obtain ⟨m, rfl⟩ : ∃ m, n = m + 1 := ⟨n - 1, by omega⟩
    have hbehind : find (fun c => c = '$') (out ++ (pre ++ '$' :: (name ++ rest)))
        (sizeAdd out.length len) = npos := by
      refine find_past ?_
      rw [hpast hr, sizeAdd_eq (by omega), List.length_append, hall]
      omega
    rw [expandLoop_done hbehind, hsub, hfit]
    rfl
  · obtain ⟨hsub, hfit⟩ := pass_unknown hname hrest hval hpre
      (show len ≤ pre.length + 1 + name.length by rw [hlen hr]; omega) out.length
    have hle : len ≤ (pre ++ '$' :: (name ++ rest)).length := by
      rw [hlen hr]
      simp only [List.length_append, List.length_cons]
      omega
    have hpos : 0 < len := by
      rw [hlen hr]
      exact Nat.succ_pos _
    rw [hsub, hfit]
    generalize pre ++ '$' :: (name ++ rest) = t at hle hfits hn ⊢
    have hout : (out ++ t.take len).length = sizeAdd out.length len := by
      rw [List.length_append] at hfits
      rw [sizeAdd_eq (by omega), List.length_append, List.length_take_of_le hle]
    have htext : out ++ t = out ++ t.take len ++ t.drop len := by
      rw [List.append_assoc, List.take_append_drop]
    have hnext := @ih (out ++ t.take len) (t.drop len) (by rwa [← htext])
      (by rw [List.length_drop]; omega)
    rw [hout, ← htext] at hnext
    rw [List.length_append] at hfits
    rw [hnext, sizeAdd_eq (by omega), List.append_assoc]

end Variable

/-- **What the loop makes of the text behind its position.** -/
theorem onePass (env : Environment) (n : Nat) : OnePass env n := by
  induction n with
  | zero => exact fun _ hn => absurd hn (Nat.not_lt_zero _)
  | succ n ih =>
    intro out t hfits hn
    by_cases hdollar : '$' ∈ t
    · obtain ⟨pre, cs, rfl, hpre⟩ := List.eq_append_cons_of_mem hdollar
      obtain ⟨name, rest, hcs, hname, hrest⟩ : ∃ name rest, cs = name ++ rest ∧
          (∀ c ∈ name, isVarchar c = true) ∧ ∀ c ∈ rest.head?, isVarchar c = false := by
        refine ⟨cs.takeWhile isVarchar, cs.dropWhile isVarchar, List.takeWhile_append_dropWhile.symm,
          fun c hc => List.mem_takeWhile_imp hc, fun c hc => ?_⟩
        have hstop := List.head?_dropWhile_not isVarchar cs
        rw [Option.mem_def.mp hc] at hstop
        exact hstop
      subst hcs
      cases hval : env.getenv name with
      | some val => exact ih.defined hpre hname hrest hfits hn hval
      | none => exact ih.unknown hpre hname hrest hfits hn hval
    · have hmiss : find (fun c => c = '$') (out ++ t) out.length = npos :=
        find_miss fun d hd => decide_eq_false fun e => hdollar (e ▸ hd)
      obtain ⟨hsub, hfit⟩ := pass_plain env hdollar out.length []
      rw [List.append_nil, substitute, List.append_nil] at hsub
      rw [List.append_nil, stagesFit] at hfit
      rw [expandLoop_done hmiss, hfit, hsub]
      rfl

end Loop

/-- **The loop ends, and its result is that of one pass.**  There is one round for each
character at most; `replace` throws exactly if the argument becomes too long for a string. -/
theorem expand_eq_substitute (it : CxxString) :
    expandLoop env (it.chars.length + 1) 0 it.chars =
      some (if stagesFit env 0 it.chars then .ok (substitute env it.chars)
        else .error .length) :=
  onePass env _ (show ([] ++ it.chars).length ≤ maxSize from it.fits) (Nat.lt_succ_self _)

/-- A value with a dollar sign is not looked at again, an unknown variable and a lone sign stay. -/
example :
    let env : Environment := ⟨fun s => if s = "A".toList then some ⟨"$A".toList, by decide⟩
      else none, rfl⟩
    expandLoop env 20 0 "x$A.$AB$".toList = some (.ok "x$A.$AB$".toList) := by
  decide

end Shell

end HoiChess
