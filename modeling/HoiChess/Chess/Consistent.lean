import HoiChess.Lib.Incremental
import HoiChess.Chess.Board
import HoiChess.Chess.Rules

/-!
# Consistency of the redundant fields

A `Placement` says which man stands on which square.  `Consistent b man` says that
every redundant field of the board `b` is what one would compute from `man`
and from the side, flags and en passant square of `b`.  Each board operation
preserves it, with `man` updated at the squares involved
(`Consistent.placePiece`, `Consistent.removePiece`, `Consistent.movePiece`), so a list of piece
operations does (`Consistent.runOps`) whenever each of them finds the board as its
assertions say.
-/

namespace HoiChess.Chess

open WordSet Incremental



/-! ## Castling flags as a set -/

def CastleFlag.bit : CastleFlag → Fin 32
  | .wk => 0
  | .wq => 1
  | .bk => 2
  | .bq => 3

theorem CastleFlag.bit_injective {f g : CastleFlag} (h : f.bit = g.bit) : f = g := by
  cases f <;> cases g <;> first | rfl | cases h

theorem CastleFlag.mask_eq (f : CastleFlag) : f.mask = 1#32 <<< f.bit.val := by
  cases f <;> rfl

theorem hasFlag_eq_mem (b : Board) (f : CastleFlag) : b.hasFlag f = mem b.flags f.bit := by
  rw [Board.hasFlag, f.mask_eq]
  rfl

/-- The fields that `set_flag`, `clear_flag`, `set_epsq` and `clear_epsq` leave alone. -/
structure SamePieces (b b' : Board) : Prop where
  side : b'.side = b.side
  position : b'.position = b.position
  positionAll : b'.positionAll = b.positionAll
  occupied : b'.occupied = b.occupied
  occupiedL90 : b'.occupiedL90 = b.occupiedL90
  occupiedL45 : b'.occupiedL45 = b.occupiedL45
  occupiedR45 : b'.occupiedR45 = b.occupiedR45
  king : b'.king = b.king
  material : b'.material = b.material
  pawnhashkey : b'.pawnhashkey = b.pawnhashkey

theorem SamePieces.refl (b : Board) : SamePieces b b :=
  ⟨rfl, rfl, rfl, rfl, rfl, rfl, rfl, rfl, rfl, rfl⟩

theorem SamePieces.trans {b b' b'' : Board} (h : SamePieces b b') (h' : SamePieces b' b'') :
    SamePieces b b'' :=
  ⟨h'.1.trans h.1, h'.2.trans h.2, h'.3.trans h.3, h'.4.trans h.4, h'.5.trans h.5,
    h'.6.trans h.6, h'.7.trans h.7, h'.8.trans h.8, h'.9.trans h.9, h'.10.trans h.10⟩

/-! ## What each field is computed from -/

section Keys

variable [k : Build]

/-- The key of the man on a square. -/
def manKey (sq : Square) : Option Man → Hashkey
  | none => 0#64
  | some (c, p) => k.hashkeys c p sq

/-- The key of the man on a square in the pawn hash. -/
def manPawnKey (sq : Square) (m : Option Man) : Hashkey :=
  match m with
  | none => 0#64
  | some (c, p) => if p = .pawn then k.hashkeys c p sq else 0#64

/-- What the man on a square counts for side `c`. -/
def manValue (c : Color) : Option Man → Int
  | none => 0
  | some (d, p) => if d = c then matValues p else 0

def sideKey : Color → Hashkey
  | .white => 0#64
  | .black => k.hashSide

def flagKeyIf (b : Board) (f : CastleFlag) : Hashkey :=
  if b.hasFlag f then Board.flagKey f else 0#64

def flagsKey (b : Board) : Hashkey :=
  flagKeyIf b .wk ^^^ flagKeyIf b .wq ^^^ flagKeyIf b .bk ^^^ flagKeyIf b .bq

/-- The keys that depend neither on the pieces nor on the side. -/
def stateKey (b : Board) : Hashkey := flagsKey b ^^^ Board.epKey b.epsq

/-- The redundant fields of `b` agree with the placement `man`. -/
structure Consistent (b : Board) (man : Placement) : Prop where
  pos : ∀ c p sq, mem (b.pos c p) sq = decide (man sq = some (c, p))
  all : ∀ c sq, mem (b.getPieces c) sq = (man sq).any (fun m => m.1 = c)
  rot : Rotations (fun sq => (man sq).isSome) b.occupied b.occupiedL90 b.occupiedL45 b.occupiedR45
  king : ∀ c sq, b.getKing c = some sq → man sq = some (c, .king)
  material : ∀ c, b.material.get c = ∑ sq, manValue c (man sq)
  hash : b.hashkey = xorSum (fun sq => manKey sq (man sq)) ^^^ sideKey b.side ^^^ stateKey b
  pawnhash : b.pawnhashkey = xorSum (fun sq => manPawnKey sq (man sq)) ^^^ sideKey b.side

end Keys

theorem mapL90_injective : ∀ s t : Square, mapL90 s = mapL90 t → s = t := by decide +kernel
theorem mapL45_injective : ∀ s t : Square, mapL45 s = mapL45 t → s = t := by decide
theorem mapR45_injective : ∀ s t : Square, mapR45 s = mapR45 t → s = t := by decide

/-! ## Words that follow a changing set of squares -/

section Words

variable {bb : Bitboard} {f : Square → Square} {on : Square → Bool}

/-- A word that is the image of a set of squares under an injective map. -/
def Image (bb : Bitboard) (f : Square → Square) (on : Square → Bool) : Prop :=
  ∀ s, mem bb (f s) = on s

theorem Image.insert (h : Image bb f on) (hf : ∀ s t, f s = f t → s = t) (sq : Square) :
    Image (WordSet.insert bb (f sq)) f (Function.update on sq true) := by
  intro s
  rw [mem_insert, h s]
  by_cases e : s = sq
  · subst e; simp
  · have : ¬ f sq = f s := fun e' => e (hf _ _ e').symm
    simp [Function.update_of_ne e, this]

theorem Image.erase (h : Image bb f on) (hf : ∀ s t, f s = f t → s = t) (sq : Square) :
    Image (WordSet.erase bb (f sq)) f (Function.update on sq false) := by
  intro s
  rw [mem_erase, h s]
  by_cases e : s = sq
  · subst e; simp
  · have : ¬ f sq = f s := fun e' => e (hf _ _ e').symm
    simp [Function.update_of_ne e, this]

end Words

theorem comp_update {β : Type} (g : Option Man → β) (man : Placement) (sq : Square)
    (m : Option Man) :
    (fun s => g (Function.update man sq m s)) = Function.update (fun s => g (man s)) sq (g m) := by
  funext s
  by_cases e : s = sq
  · subst e; simp
  · simp [Function.update_of_ne e]

theorem comp_update' {β : Type} (g : Square → Option Man → β) (man : Placement) (sq : Square)
    (m : Option Man) :
    (fun s => g s (Function.update man sq m s)) =
      Function.update (fun s => g s (man s)) sq (g sq m) := by
  funext s
  by_cases e : s = sq
  · subst e; simp
  · simp [Function.update_of_ne e]

section Rotations

variable {man : Placement} {o l90 l45 r45 : Bitboard}

theorem Rotations.place (h : Rotations (fun s => (man s).isSome) o l90 l45 r45) (sq : Square)
    (m : Man) :
    Rotations (fun s => (Function.update man sq (some m) s).isSome) (insert o sq)
      (insert l90 (mapL90 sq)) (insert l45 (mapL45 sq)) (insert r45 (mapR45 sq)) := by
  rw [comp_update (fun m => m.isSome)]
  exact ⟨Image.insert (f := id) h.occ0 (fun _ _ e => e) sq,
    Image.insert h.occL90 mapL90_injective sq, Image.insert h.occL45 mapL45_injective sq,
    Image.insert h.occR45 mapR45_injective sq⟩

theorem Rotations.remove (h : Rotations (fun s => (man s).isSome) o l90 l45 r45) (sq : Square) :
    Rotations (fun s => (Function.update man sq none s).isSome) (erase o sq)
      (erase l90 (mapL90 sq)) (erase l45 (mapL45 sq)) (erase r45 (mapR45 sq)) := by
  rw [comp_update (fun m => m.isSome)]
  exact ⟨Image.erase (f := id) h.occ0 (fun _ _ e => e) sq,
    Image.erase h.occL90 mapL90_injective sq, Image.erase h.occL45 mapL45_injective sq,
    Image.erase h.occR45 mapR45_injective sq⟩

end Rotations

namespace Consistent

variable [k : Build] {b : Board} {man : Placement}

/-! ## Reading the board -/

theorem colorAt_eq (h : Consistent b man) (sq : Square) : b.colorAt sq = (man sq).map Prod.fst := by
  unfold Board.colorAt
  simp only [Bitboard.testbit, List.find?, h.all]
  cases hm : man sq with
  | none => rfl
  | some m =>
    obtain ⟨c, p⟩ := m
    cases c <;> rfl

theorem pieceAt_eq (h : Consistent b man) (sq : Square) : b.pieceAt sq = (man sq).map Prod.snd := by
  unfold Board.pieceAt
  simp only [Bitboard.testbit, List.find?, mem_or, h.pos]
  cases hm : man sq with
  | none => rfl
  | some m =>
    obtain ⟨c, p⟩ := m
    cases c <;> cases p <;> rfl

theorem occ_eq (h : Consistent b man) (sq : Square) : mem b.occupied sq = (man sq).isSome :=
  h.rot.occ0 sq

theorem mem_pos (h : Consistent b man) (c : Color) (p : Piece) (sq : Square) :
    mem (b.pos c p) sq = true ↔ man sq = some (c, p) := by
  rw [h.pos, decide_eq_true_iff]

theorem mem_all (h : Consistent b man) (c : Color) (sq : Square) :
    mem (b.getPieces c) sq = true ↔ ∃ p, man sq = some (c, p) := by
  rw [h.all]
  cases man sq with
  | none => simp
  | some m =>
    obtain ⟨d, q⟩ := m
    simp

theorem mem_occ (h : Consistent b man) (sq : Square) :
    mem b.occupied sq = true ↔ ∃ c p, man sq = some (c, p) := by
  rw [h.occ_eq, Option.isSome_iff_exists]
  simp

/-! ## The piece operations -/

omit k in
/-- One word of the position is written. -/
theorem mem_position_set (b : Board) (c d : Color) (p q : Piece) (w : Bitboard) (s : Square) :
    mem (((b.position.set c ((b.position.get c).set p w)).get d).get q) s =
      if c = d ∧ p = q then mem w s else mem (b.pos d q) s := by
  rw [PerColor.get_set]
  by_cases hc : c = d
  · subst hc
    rw [if_pos rfl, PerPiece.get_set]
    by_cases hp : p = q
    · rw [if_pos hp, if_pos ⟨rfl, hp⟩]
    · rw [if_neg hp, if_neg fun e => hp e.2, Board.pos]
  · rw [if_neg hc, if_neg fun e => hc e.1, Board.pos]

omit k in
theorem mem_all_set (b : Board) (c d : Color) (w : Bitboard) (s : Square) :
    mem ((b.positionAll.set c w).get d) s = if c = d then mem w s else mem (b.getPieces d) s := by
  rw [PerColor.get_set]
  by_cases hc : c = d
  · rw [if_pos hc, if_pos hc]
  · rw [if_neg hc, if_neg hc, Board.getPieces]

theorem placePiece (h : Consistent b man) {sq : Square} (c : Color) (p : Piece) (he : man sq = none) :
    Consistent (b.placePiece sq c p) (Function.update man sq (some (c, p))) where
  pos d q s := by
    change mem (((b.position.set c ((b.position.get c).set p (insert (b.pos c p) sq))).get d).get q)
      s = _
    rw [mem_position_set, h.pos]
    by_cases e : s = sq
    · subst e
      rw [Function.update_self, he, mem_insert]
      by_cases hcp : c = d ∧ p = q <;> simp [hcp]
    · rw [Function.update_of_ne e]
      split
      · rename_i hcp
        obtain ⟨rfl, rfl⟩ := hcp
        simp [h.pos, Ne.symm e]
      · rfl
  all d s := by
    change mem ((b.positionAll.set c (insert (b.getPieces c) sq)).get d) s = _
    rw [mem_all_set, h.all]
    by_cases e : s = sq
    · subst e
      rw [Function.update_self, he, mem_insert]
      by_cases hc : c = d <;> simp [hc]
    · rw [Function.update_of_ne e]
      split
      · rename_i hc
        obtain rfl := hc
        simp [h.all, Ne.symm e]
      · rfl
  rot := h.rot.place sq (c, p)
  king d s hk := by
    change (if p = .king then b.king.set c (some sq) else b.king).get d = some s at hk
    have hold : b.getKing d = some s →
        Function.update man sq (some (c, p)) s = some (d, .king) := by
      intro hk
      have hs := h.king d s hk
      rw [Function.update_of_ne, hs]
      rintro rfl
      rw [he] at hs
      cases hs
    by_cases hp : p = .king
    · rw [if_pos hp, PerColor.get_set] at hk
      by_cases hc : c = d
      · rw [if_pos hc] at hk
        cases hk
        rw [Function.update_self, hp, hc]
      · rw [if_neg hc] at hk
        exact hold hk
    · rw [if_neg hp] at hk
      exact hold hk
  material d := by
    change (b.material.set c (b.material.get c + matValues p)).get d = _
    rw [comp_update (manValue d), sum_update, he, ← h.material d, PerColor.get_set]
    by_cases hc : c = d
    · subst hc; simp [manValue]
    · simp [manValue, hc]
  hash := by
    change b.hashkey ^^^ k.hashkeys c p sq = _ ^^^ sideKey b.side ^^^ stateKey b
    rw [comp_update' manKey, xorSum_update, he, h.hash]
    simp only [manKey, BitVec.xor_zero]
    ac_rfl
  pawnhash := by
    change (if p = .pawn then b.pawnhashkey ^^^ k.hashkeys c p sq else b.pawnhashkey) =
      _ ^^^ sideKey b.side
    rw [comp_update' manPawnKey, xorSum_update, he, h.pawnhash]
    by_cases hp : p = .pawn
    · simp only [manPawnKey, hp, if_true, BitVec.xor_zero]
      ac_rfl
    · simp [manPawnKey, hp]

theorem removePiece (h : Consistent b man) {sq : Square} {c : Color} {p : Piece}
    (he : man sq = some (c, p)) :
    Consistent (b.removePiece sq c p) (Function.update man sq none) where
  pos d q s := by
    change mem (((b.position.set c ((b.position.get c).set p (erase (b.pos c p) sq))).get d).get q)
      s = _
    rw [mem_position_set, h.pos]
    by_cases e : s = sq
    · subst e
      rw [Function.update_self, he, mem_erase]
      by_cases hcp : c = d ∧ p = q <;> simp [hcp]
    · rw [Function.update_of_ne e]
      split
      · rename_i hcp
        obtain ⟨rfl, rfl⟩ := hcp
        simp [h.pos, Ne.symm e]
      · rfl
  all d s := by
    change mem ((b.positionAll.set c (erase (b.getPieces c) sq)).get d) s = _
    rw [mem_all_set, h.all]
    by_cases e : s = sq
    · subst e
      rw [Function.update_self, he, mem_erase]
      by_cases hc : c = d <;> simp [hc]
    · rw [Function.update_of_ne e]
      split
      · rename_i hc
        obtain rfl := hc
        simp [h.all, Ne.symm e]
      · rfl
  rot := h.rot.remove sq
  king d s hk := by
    change (if p = .king then b.king.set c none else b.king).get d = some s at hk
    by_cases hp : p = .king
    · rw [if_pos hp, PerColor.get_set] at hk
      by_cases hc : c = d
      · rw [if_pos hc] at hk
        cases hk
      · rw [if_neg hc] at hk
        have hs := h.king d s hk
        rw [Function.update_of_ne, hs]
        rintro rfl
        rw [he] at hs
        exact hc (congrArg Prod.fst (Option.some.inj hs))
    · rw [if_neg hp] at hk
      have hs := h.king d s hk
      rw [Function.update_of_ne, hs]
      rintro rfl
      rw [he] at hs
      exact hp (congrArg Prod.snd (Option.some.inj hs))
  material d := by
    change (b.material.set c (b.material.get c - matValues p)).get d = _
    rw [comp_update (manValue d), sum_update, he, ← h.material d, PerColor.get_set]
    by_cases hc : c = d
    · subst hc; simp [manValue]
    · simp [manValue, hc]
  hash := by
    change b.hashkey ^^^ k.hashkeys c p sq = _ ^^^ sideKey b.side ^^^ stateKey b
    rw [comp_update' manKey, xorSum_update, he, h.hash]
    simp only [manKey, BitVec.xor_zero]
    ac_rfl
  pawnhash := by
    change (if p = .pawn then b.pawnhashkey ^^^ k.hashkeys c p sq else b.pawnhashkey) =
      _ ^^^ sideKey b.side
    rw [comp_update' manPawnKey, xorSum_update, he, h.pawnhash]
    by_cases hp : p = .pawn
    · simp only [manPawnKey, hp, if_true, BitVec.xor_zero]
      ac_rfl
    · simp [manPawnKey, hp]

end Consistent

theorem PerPiece.set_set {α : Type} (a : PerPiece α) (p : Piece) (v w : α) :
    (a.set p v).set p w = a.set p w := by
  cases p <;> rfl

section Keys

variable [k : Build]

/-- Moving a piece is removing it and placing it again. -/
theorem movePiece_eq (b : Board) (src dst : Square) (c : Color) (p : Piece) :
    b.movePiece src dst c p = (b.removePiece src c p).placePiece dst c p := by
  unfold Board.movePiece Board.placePiece Board.removePiece
  simp only [PerColor.get_set_self, PerColor.set_set, PerPiece.set_set, Board.pos,
    Board.getPieces, PerPiece.get_set, if_true, sub_add_cancel, PerColor.set_get]
  congr 1
  · by_cases hp : p = .king <;> simp [hp, PerColor.set_set]
  · by_cases hp : p = .pawn <;> simp [hp]

/-! ## Side, flags and en passant square -/

theorem sideKey_xside (c : Color) : sideKey c.xside = sideKey c ^^^ k.hashSide := by
  cases c <;> simp [sideKey, Color.xside]

theorem hasFlag_setFlag (b : Board) (f g : CastleFlag) :
    (b.setFlag f).hasFlag g = (b.hasFlag g || decide (f = g)) := by
  unfold Board.setFlag
  split
  · rename_i hf
    by_cases e : f = g
    · subst e; simp [hf]
    · simp [e]
  · rw [hasFlag_eq_mem, hasFlag_eq_mem]
    simp only
    rw [f.mask_eq]
    change mem (insert b.flags f.bit) g.bit = _
    rw [mem_insert]
    congr 1
    exact decide_eq_decide.mpr ⟨CastleFlag.bit_injective, fun e => by rw [e]⟩

theorem hasFlag_clearFlag (b : Board) (f g : CastleFlag) :
    (b.clearFlag f).hasFlag g = (b.hasFlag g && !decide (f = g)) := by
  unfold Board.clearFlag
  split
  · rw [hasFlag_eq_mem, hasFlag_eq_mem]
    simp only
    rw [f.mask_eq]
    change mem (erase b.flags f.bit) g.bit = _
    rw [mem_erase]
    congr 2
    exact decide_eq_decide.mpr ⟨CastleFlag.bit_injective, fun e => by rw [e]⟩
  · rename_i hf
    by_cases e : f = g
    · subst e; simp [hf]
    · simp [e]

/-- Toggling one flag toggles its key. -/
theorem flagsKey_toggle {b c : Board} (f : CastleFlag)
    (h : ∀ g, c.hasFlag g = (b.hasFlag g ^^ decide (f = g))) :
    flagsKey c = flagsKey b ^^^ Board.flagKey f := by
  have key : ∀ g, flagKeyIf c g = if f = g then flagKeyIf b g ^^^ Board.flagKey f
      else flagKeyIf b g := by
    intro g
    unfold flagKeyIf
    rw [h g]
    by_cases e : f = g
    · subst e
      cases b.hasFlag f <;> simp
    · simp [e]
  unfold flagsKey
  rw [key .wk, key .wq, key .bk, key .bq]
  cases f <;> simp <;> ac_rfl

theorem setFlag_hashkey (b : Board) (f : CastleFlag) :
    (b.setFlag f).hashkey ^^^ flagsKey (b.setFlag f) = b.hashkey ^^^ flagsKey b := by
  by_cases hf : b.hasFlag f = true
  · have e : b.setFlag f = b := by rw [Board.setFlag, if_pos hf]
    rw [e]
  · have ht := flagsKey_toggle (b := b) (c := b.setFlag f) f (by
      intro g
      rw [hasFlag_setFlag]
      by_cases e : f = g
      · subst e; simp [hf]
      · simp [e])
    have hh : (b.setFlag f).hashkey = b.hashkey ^^^ Board.flagKey f := by
      rw [Board.setFlag, if_neg hf]
    rw [ht, hh]
    calc _ = b.hashkey ^^^ flagsKey b ^^^ (Board.flagKey f ^^^ Board.flagKey f) := by ac_rfl
      _ = _ := by rw [BitVec.xor_self, BitVec.xor_zero]

theorem clearFlag_hashkey (b : Board) (f : CastleFlag) :
    (b.clearFlag f).hashkey ^^^ flagsKey (b.clearFlag f) = b.hashkey ^^^ flagsKey b := by
  by_cases hf : b.hasFlag f = true
  · have ht := flagsKey_toggle (b := b) (c := b.clearFlag f) f (by
      intro g
      rw [hasFlag_clearFlag]
      by_cases e : f = g
      · subst e; simp [hf]
      · simp [e])
    have hh : (b.clearFlag f).hashkey = b.hashkey ^^^ Board.flagKey f := by
      rw [Board.clearFlag, if_pos hf]
    rw [ht, hh]
    calc _ = b.hashkey ^^^ flagsKey b ^^^ (Board.flagKey f ^^^ Board.flagKey f) := by ac_rfl
      _ = _ := by rw [BitVec.xor_self, BitVec.xor_zero]
  · have e : b.clearFlag f = b := by rw [Board.clearFlag, if_neg hf]
    rw [e]

theorem samePieces_setFlag (b : Board) (f : CastleFlag) : SamePieces b (b.setFlag f) := by
  unfold Board.setFlag
  split
  · exact .refl b
  · exact ⟨rfl, rfl, rfl, rfl, rfl, rfl, rfl, rfl, rfl, rfl⟩

theorem samePieces_clearFlag (b : Board) (f : CastleFlag) : SamePieces b (b.clearFlag f) := by
  unfold Board.clearFlag
  split
  · exact ⟨rfl, rfl, rfl, rfl, rfl, rfl, rfl, rfl, rfl, rfl⟩
  · exact .refl b

theorem samePieces_setEpsq (b : Board) (sq : Option Square) : SamePieces b (b.setEpsq sq) :=
  ⟨rfl, rfl, rfl, rfl, rfl, rfl, rfl, rfl, rfl, rfl⟩

theorem samePieces_clearEpsq (b : Board) : SamePieces b b.clearEpsq :=
  ⟨rfl, rfl, rfl, rfl, rfl, rfl, rfl, rfl, rfl, rfl⟩

theorem side_setSide (b : Board) (c : Color) : (b.setSide c).side = c := by
  unfold Board.setSide
  split
  · rename_i h
    exact (eq_xside_of_ne (Ne.symm h)).symm
  · rename_i h
    exact not_not.mp h

@[simp] theorem epsq_setFlag (b : Board) (f : CastleFlag) : (b.setFlag f).epsq = b.epsq := by
  unfold Board.setFlag
  split <;> rfl

@[simp] theorem epsq_clearFlag (b : Board) (f : CastleFlag) : (b.clearFlag f).epsq = b.epsq := by
  unfold Board.clearFlag
  split <;> rfl

namespace Consistent

variable {b : Board} {man : Placement}

theorem movePiece (h : Consistent b man) {src dst : Square} {c : Color} {p : Piece}
    (hs : man src = some (c, p)) (hd : man dst = none) :
    Consistent (b.movePiece src dst c p)
      (Function.update (Function.update man src none) dst (some (c, p))) := by
  rw [movePiece_eq]
  apply (h.removePiece hs).placePiece c p
  rw [Function.update_of_ne, hd]
  rintro rfl
  rw [hd] at hs
  cases hs

/-- Changes outside the pieces keep `Consistent` if the hash key follows them. -/
theorem of_samePieces (h : Consistent b man) {b' : Board} (hs : SamePieces b b')
    (hh : b'.hashkey ^^^ stateKey b' = b.hashkey ^^^ stateKey b) : Consistent b' man where
  pos c p sq := by rw [← h.pos c p sq, Board.pos, Board.pos, hs.position]
  all c sq := by rw [← h.all c sq, Board.getPieces, Board.getPieces, hs.positionAll]
  rot := by
    rw [hs.occupied, hs.occupiedL90, hs.occupiedL45, hs.occupiedR45]
    exact h.rot
  king c sq := by
    rw [Board.getKing, hs.king]
    exact h.king c sq
  material c := by rw [hs.material, h.material c]
  hash := by
    have e : b'.hashkey = b.hashkey ^^^ stateKey b ^^^ stateKey b' := by
      rw [← hh, BitVec.xor_assoc, BitVec.xor_self, BitVec.xor_zero]
    have e' : b.hashkey ^^^ stateKey b =
        xorSum (fun sq => manKey sq (man sq)) ^^^ sideKey b.side := by
      rw [h.hash, BitVec.xor_assoc, BitVec.xor_self, BitVec.xor_zero]
    rw [e, e', hs.side]
  pawnhash := by rw [hs.pawnhashkey, h.pawnhash, hs.side]

theorem setFlag (h : Consistent b man) (f : CastleFlag) : Consistent (b.setFlag f) man := by
  apply h.of_samePieces (samePieces_setFlag b f)
  unfold stateKey
  rw [← BitVec.xor_assoc, setFlag_hashkey, epsq_setFlag, BitVec.xor_assoc]

theorem clearFlag (h : Consistent b man) (f : CastleFlag) : Consistent (b.clearFlag f) man := by
  apply h.of_samePieces (samePieces_clearFlag b f)
  unfold stateKey
  rw [← BitVec.xor_assoc, clearFlag_hashkey, epsq_clearFlag, BitVec.xor_assoc]

theorem setEpsq (h : Consistent b man) (sq : Option Square) : Consistent (b.setEpsq sq) man := by
  apply h.of_samePieces (samePieces_setEpsq b sq)
  change b.hashkey ^^^ Board.epKey b.epsq ^^^ Board.epKey sq ^^^ (flagsKey b ^^^ Board.epKey sq) =
    b.hashkey ^^^ (flagsKey b ^^^ Board.epKey b.epsq)
  calc _ = b.hashkey ^^^ (flagsKey b ^^^ Board.epKey b.epsq) ^^^
        (Board.epKey sq ^^^ Board.epKey sq) := by ac_rfl
    _ = _ := by rw [BitVec.xor_self, BitVec.xor_zero]

theorem clearEpsq_eq (b : Board) : b.clearEpsq = b.setEpsq none := by
  simp [Board.clearEpsq, Board.setEpsq, Board.epKey]

theorem clearEpsq (h : Consistent b man) : Consistent b.clearEpsq man := by
  rw [clearEpsq_eq]
  exact h.setEpsq none

theorem switchSides (h : Consistent b man) : Consistent b.switchSides man where
  pos := h.pos
  all := h.all
  rot := h.rot
  king := h.king
  material := h.material
  hash := by
    change b.hashkey ^^^ k.hashSide = _ ^^^ sideKey b.side.xside ^^^ stateKey b
    rw [sideKey_xside, h.hash]
    ac_rfl
  pawnhash := by
    change b.pawnhashkey ^^^ k.hashSide = _ ^^^ sideKey b.side.xside
    rw [sideKey_xside, h.pawnhash]
    ac_rfl

theorem setSide (h : Consistent b man) (c : Color) : Consistent (b.setSide c) man := by
  unfold Board.setSide
  split
  · exact h.switchSides
  · exact h

theorem clear : Consistent Board.clear (fun _ => none) where
  pos c p sq := by simp [Board.clear, Board.pos]
  all c sq := by simp [Board.clear, Board.getPieces]
  rot := ⟨fun _ => by simp [Board.clear], fun _ => by simp [Board.clear],
    fun _ => by simp [Board.clear], fun _ => by simp [Board.clear]⟩
  king c sq hk := by simp [Board.clear, Board.getKing] at hk
  material c := by simp [Board.clear, manValue]
  hash := by
    simp only [manKey, xorSum_zero]
    have hf : ∀ f : CastleFlag, Board.hasFlag Board.clear f = false := by intro f; cases f <;> rfl
    simp [Board.clear, sideKey, stateKey, flagsKey, flagKeyIf, Board.epKey, Board.hasFlag]
  pawnhash := by
    simp only [manPawnKey, xorSum_zero]
    simp [Board.clear, sideKey]

end Consistent

end Keys

/-! ## Lists of piece operations -/

namespace PieceOp

/-- The effect of an operation on the placement. -/
def apply (man : Placement) : PieceOp → Placement
  | place sq c p => Function.update man sq (some (c, p))
  | remove sq _ _ => Function.update man sq none
  | move src dst c p => Function.update (Function.update man src none) dst (some (c, p))

/-- What the assertions of an operation say about the placement. -/
def OkAt (man : Placement) : PieceOp → Prop
  | place sq _ _ => man sq = none
  | remove sq c p => man sq = some (c, p)
  | move src dst c p => man src = some (c, p) ∧ man dst = none

instance (man : Placement) (op : PieceOp) : Decidable (op.OkAt man) :=
  match op with
  | place sq _ _ => inferInstanceAs (Decidable (man sq = none))
  | remove sq c p => inferInstanceAs (Decidable (man sq = some (c, p)))
  | move src dst c p => inferInstanceAs (Decidable (man src = some (c, p) ∧ man dst = none))

end PieceOp

/-- Every operation finds the placement as it asserts. -/
def OpsOkAt : Placement → List PieceOp → Prop
  | _, [] => True
  | man, op :: ops => op.OkAt man ∧ OpsOkAt (op.apply man) ops

section Keys

variable [Build]

theorem PieceOp.ok_iff {b : Board} {man : Placement} (h : Consistent b man) (op : PieceOp) :
    op.Ok b ↔ op.OkAt man := by
  have hnone : ∀ sq, (b.colorAt sq = none ∧ b.pieceAt sq = none) ↔ man sq = none := by
    intro sq
    rw [h.colorAt_eq, h.pieceAt_eq]
    cases man sq <;> simp
  have hsome : ∀ sq c p, (b.colorAt sq = some c ∧ b.pieceAt sq = some p) ↔
      man sq = some (c, p) := by
    intro sq c p
    rw [h.colorAt_eq, h.pieceAt_eq]
    cases man sq with
    | none => simp
    | some m => obtain ⟨d, q⟩ := m; simp
  cases op with
  | place sq c p => exact hnone sq
  | remove sq c p => exact hsome sq c p
  | move src dst c p => exact and_congr (hsome src c p) (hnone dst)

theorem Consistent.exec {b : Board} {man : Placement} (h : Consistent b man) {op : PieceOp}
    (hop : op.OkAt man) : Consistent (op.exec b) (op.apply man) := by
  cases op with
  | place sq c p => exact h.placePiece c p hop
  | remove sq c p => exact h.removePiece hop
  | move src dst c p => exact h.movePiece hop.1 hop.2

/-- **A run of piece operations keeps the fields consistent.** -/
theorem Consistent.runOps {b : Board} {man : Placement} (h : Consistent b man) {ops : List PieceOp}
    (hops : OpsOkAt man ops) : Consistent (b.runOps ops) (ops.foldl PieceOp.apply man) := by
  induction ops generalizing b man with
  | nil => exact h
  | cons op ops ih => exact ih (h.exec hops.1) hops.2

theorem opsOk_iff {b : Board} {man : Placement} (h : Consistent b man) (ops : List PieceOp) :
    b.OpsOk ops ↔ OpsOkAt man ops := by
  induction ops generalizing b man with
  | nil => exact Iff.rfl
  | cons op ops ih =>
    change op.Ok b ∧ (op.exec b).OpsOk ops ↔ op.OkAt man ∧ OpsOkAt (op.apply man) ops
    rw [PieceOp.ok_iff h]
    exact and_congr_right fun hop => ih (h.exec hop)

end Keys

end HoiChess.Chess
