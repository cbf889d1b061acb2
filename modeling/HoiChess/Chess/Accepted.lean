import HoiChess.Chess.Mirror
import HoiChess.Chess.WellPlaced

/-!
# What holds of every board that is read

`parse_fen` accepts boards on which two men share a square, so that no placement of the rules
describes them.  Some of the redundant fields are in order nevertheless: the rotated occupancies,
the squares of the kings, and the material is that of at most 80 men.
-/

namespace HoiChess.Chess

open WordSet

/-- What holds of a board on which so many calls of `place_piece` were made. -/
structure Board.PutUp (b : Board) (n : Nat) : Prop where
  occupancies : b.OccupanciesAgree
  king : ∀ c sq, mem (b.pos c .king) sq = true → b.getKing c ≠ none
  material : ∀ c, 0 ≤ b.material.get c ∧ b.material.get c ≤ 900 * n

namespace Board

/-- The fields that tell where the men are. -/
def menFields (b : Board) :=
  (b.position, b.positionAll, b.occupied, b.occupiedL90, b.occupiedL45, b.occupiedR45, b.king,
    b.material)

variable {b b' : Board} {n : Nat}

theorem PutUp.congr (h : b.PutUp n) (he : b'.menFields = b.menFields) : b'.PutUp n := by
  unfold menFields at he
  simp only [Prod.mk.injEq] at he
  obtain ⟨h1, _, h3, h4, h5, h6, h7, h8⟩ := he
  constructor
  · unfold OccupanciesAgree
    rw [h3, h4, h5, h6]
    exact h.occupancies
  · intro c sq hk
    rw [getKing, h7]
    rw [pos, h1] at hk
    exact h.king c sq hk
  · intro c
    rw [h8]
    exact h.material c

theorem matValues_bounds (p : Piece) : 0 ≤ matValues p ∧ matValues p ≤ 900 := by
  cases p <;> decide

variable [Build]

theorem OccupanciesAgree.placePiece (h : b.OccupanciesAgree) (sq : Square) (c : Color) (p : Piece) :
    (b.placePiece sq c p).OccupanciesAgree := by
  have hupd : mem (insert b.occupied sq) = Function.update (mem b.occupied) sq true :=
    funext fun s => Image.insert (f := id) h.occ0 (fun _ _ e => e) sq s
  refine ⟨fun s => rfl, fun s => ?_, fun s => ?_, fun s => ?_⟩
  · exact (Image.insert h.occL90 mapL90_injective sq s).trans (congrFun hupd s).symm
  · exact (Image.insert h.occL45 mapL45_injective sq s).trans (congrFun hupd s).symm
  · exact (Image.insert h.occR45 mapR45_injective sq s).trans (congrFun hupd s).symm

theorem PutUp.placePiece (h : b.PutUp n) (sq : Square) (c : Color) (p : Piece) :
    (b.placePiece sq c p).PutUp (n + 1) := by
  refine ⟨h.occupancies.placePiece sq c p, fun d s hk => ?_, fun d => ?_⟩
  · show (if p = .king then b.king.set c (some sq) else b.king).get d ≠ none
    by_cases hc : p = .king ∧ c = d
    · obtain ⟨rfl, rfl⟩ := hc
      rw [if_pos rfl, PerColor.get_set_self]
      exact Option.some_ne_none sq
    · have hold : mem (b.pos d .king) s = true := by
        have hk' : mem (((b.position.set c ((b.position.get c).set p
            (Bitboard.setbit (b.pos c p) sq))).get d).get .king) s = true := hk
        rw [PerColor.get_set] at hk'
        split at hk'
        · rename_i hd
          rw [PerPiece.get_set, if_neg fun e => hc ⟨e, hd⟩, hd] at hk'
          exact hk'
        · exact hk'
      have hking := h.king d s hold
      split
      · rename_i hp
        rw [PerColor.get_set, if_neg fun e => hc ⟨hp, e⟩]
        exact hking
      · exact hking
  · have hp := matValues_bounds p
    have hm := h.material d
    show 0 ≤ (b.material.set c (b.material.get c + matValues p)).get d ∧
      (b.material.set c (b.material.get c + matValues p)).get d ≤ 900 * ((n + 1 : Nat) : Int)
    rw [PerColor.get_set]
    split
    · rename_i hd
      rw [hd]
      push_cast
      omega
    · push_cast
      omega

omit [Build] in
theorem putUp_clear : clear.PutUp 0 := by
  refine ⟨⟨fun s => rfl, fun s => ?_, fun s => ?_, fun s => ?_⟩, fun c sq h => ?_, fun c => ?_⟩
  · exact (mem_zero _).trans (mem_zero _).symm
  · exact (mem_zero _).trans (mem_zero _).symm
  · exact (mem_zero _).trans (mem_zero _).symm
  · have hnone : mem (clear.pos c .king) sq = false := by
      cases c
      · exact mem_zero sq
      · exact mem_zero sq
    rw [hnone] at h
    cases h
  · cases c <;> decide

/-- **All men are put up.** -/
theorem PutUp.placeAll {ps : List Placing} (h : b.PutUp n) (hb : b.placeAll ps = some b') :
    b'.PutUp (n + ps.length) := by
  induction ps generalizing b n with
  | nil =>
    cases hb
    exact h
  | cons p ps ih =>
    rw [Board.placeAll] at hb
    split at hb
    · cases hb
    · have hrest := ih (h.placePiece _ _ _) hb
      rw [List.length_cons, Nat.add_comm ps.length 1, ← Nat.add_assoc]
      exact hrest

/-! ## The other fields of the text -/

theorem setFlag_menFields (f : CastleFlag) : (b.setFlag f).menFields = b.menFields := by
  unfold setFlag
  split <;> rfl

theorem setSide_menFields (c : Color) : (b.setSide c).menFields = b.menFields := by
  unfold setSide
  split <;> rfl

theorem flagLoop_menFields {cs : List Char} (h : b.flagLoop cs = some b') :
    b'.menFields = b.menFields := by
  induction cs generalizing b with
  | nil =>
    cases h
    rfl
  | cons c cs ih =>
    rw [flagLoop] at h
    split at h
    · exact (ih h).trans (setFlag_menFields _)
    · split at h
      · exact (ih h).trans (setFlag_menFields _)
      · split at h
        · exact (ih h).trans (setFlag_menFields _)
        · split at h
          · exact (ih h).trans (setFlag_menFields _)
          · split at h
            · exact ih h
            · cases h

theorem setEpField_menFields {ep : List Char} (h : b.setEpField ep = some b') :
    b'.menFields = b.menFields := by
  unfold setEpField at h
  simp only at h
  split at h
  · cases h
    rfl
  · split at h
    · split at h
      · cases h
        rfl
      · split at h
        · cases h
          rfl
        · cases h
    · cases h

theorem setFields_menFields {f : FenFields} (h : b.setFields f = some b') :
    b'.menFields = b.menFields := by
  unfold setFields at h
  obtain ⟨c, _, h⟩ := Option.bind_eq_some_iff.mp h
  obtain ⟨b1, hb1, h⟩ := Option.bind_eq_some_iff.mp h
  obtain ⟨b2, hb2, h⟩ := Option.bind_eq_some_iff.mp h
  cases h
  exact (setEpField_menFields hb2).trans ((flagLoop_menFields hb1).trans (setSide_menFields c))

end Board

/-! ## The length of the text -/

theorem placeLoop_length (cs : List Char) (rnk : Int) (fil : Nat) :
    (placeLoop cs rnk fil).1.length ≤ cs.length := by
  induction cs generalizing rnk fil with
  | nil => exact Nat.le_refl 0
  | cons c cs ih =>
    have hcons : (c :: cs).length = cs.length + 1 := rfl
    rw [placeLoop, hcons]
    split
    · exact Nat.zero_le _
    · split
      · exact Nat.succ_le_succ (ih _ _)
      · split
        · exact (ih _ _).trans (Nat.le_succ _)
        · split
          · exact (ih _ _).trans (Nat.le_succ _)
          · exact Nat.zero_le _

theorem scanFen_pos_length {s : List Char} {f : FenFields} (h : scanFen s = some f) :
    f.pos.length ≤ 80 := by
  unfold scanFen at h
  obtain ⟨⟨pos, rest⟩, hw, h⟩ := Option.bind_eq_some_iff.mp h
  have hpos : f.pos = pos := by
    obtain ⟨_, _, h⟩ := Option.bind_eq_some_iff.mp h
    obtain ⟨_, _, h⟩ := Option.bind_eq_some_iff.mp h
    obtain ⟨_, _, h⟩ := Option.bind_eq_some_iff.mp h
    obtain ⟨_, _, h⟩ := Option.bind_eq_some_iff.mp h
    obtain ⟨_, _, h⟩ := Option.bind_eq_some_iff.mp h
    cases h
    rfl
  unfold scanWord at hw
  simp only at hw
  split at hw
  · cases hw
  · obtain ⟨rfl, _⟩ := Prod.mk.inj (Option.some.inj hw)
    rw [hpos]
    exact List.length_take_le _ _

/-- **Every board that is read**, whatever the text puts on one square. -/
theorem putUp_of_accepted [Build] {s : String} {b : Board} (h : Board.parseFen s = .accepted b) :
    b.PutUp 80 ∧ ∀ c, b.getKing c ≠ none := by
  obtain ⟨f, b0, hf, hplace, hfields, hvalid, _⟩ := steps_of_accepted h
  have hlen : (placeLoop f.pos rank8 0).1.length ≤ 80 :=
    (placeLoop_length _ _ _).trans (scanFen_pos_length hf)
  have hput := (Board.putUp_clear.placeAll hplace).congr (Board.setFields_menFields hfields)
  have hput : b.PutUp 80 := by
    refine ⟨hput.occupancies, hput.king, fun c => ?_⟩
    have hc := hput.material c
    omega
  refine ⟨hput, fun c => ?_⟩
  unfold Board.isValid at hvalid
  simp only [Bool.and_eq_true, decide_eq_true_eq] at hvalid
  have hone : count (b.pos c .king) = 1 := by
    cases c
    · exact hvalid.1.1.1
    · exact hvalid.1.1.2
  obtain ⟨sq, hsq⟩ := (count_eq_one _).mp hone
  exact hput.king c sq ((hsq sq).mpr rfl)

end HoiChess.Chess
