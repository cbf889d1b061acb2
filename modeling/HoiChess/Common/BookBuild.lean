import HoiChess.Lib.OrderedMap
import HoiChess.Common.BookMap
import HoiChess.Xiangqi.Board
import Mathlib.Data.Multiset.Basic
import Mathlib.Algebra.Order.Group.Nat
import Mathlib.Data.List.Count

/-!
# Creating a book from a database of games

`create_from_pgn` first reads the moves of all games into a map from hash keys to lists of
moves.  The loop over the moves of a game tests its counter after it has recorded a move, so
from a game with more than `depth` moves it takes one move too many
(`recorded_eq`, `depthLimit_iff`).
-/

namespace HoiChess

/-! ## The game of a database -/

/-- What creating a book asks of the game besides what the book asks of its board. -/
class BookGame (Brd : Type) (Mov : outParam Type) [BookMove Mov] extends BookBoard Brd Mov where
  makeMove : Brd → Mov → Brd
  noMove_invalid : ∀ board, isValid BookMove.noMove board = false

/-- `Move::strict_weak_ordering` -/
class MoveOrder (Mov : Type) where
  less : Mov → Mov → Prop
  decLess : DecidableRel less
  total : IsStrictTotalOrder Mov less

instance (Mov : Type) [order : MoveOrder Mov] : DecidableRel order.less := order.decLess

instance (Mov : Type) [order : MoveOrder Mov] : IsStrictTotalOrder Mov order.less := order.total

instance strictTotalOrder_words : IsStrictTotalOrder (BitVec 64) (· < ·) where
  trichotomous _ _ hab hba := BitVec.le_antisymm (BitVec.not_lt.mp hba) (BitVec.not_lt.mp hab)
  irrefl := BitVec.lt_irrefl
  trans _ _ _ := BitVec.lt_trans

namespace Chess

/-- The order of the move words. -/
def Move.less (a b : Move) : Prop := a.mov < b.mov

instance : DecidableRel Move.less := fun a b => inferInstanceAs (Decidable (a.mov < b.mov))

instance : IsStrictTotalOrder Move Move.less where
  trichotomous a b hab hba := by
    obtain ⟨a⟩ := a
    obtain ⟨b⟩ := b
    exact congrArg Move.mk (BitVec.le_antisymm (BitVec.not_lt.mp hba) (BitVec.not_lt.mp hab))
  irrefl a := BitVec.lt_irrefl a.mov
  trans _ _ _ := BitVec.lt_trans

theorem Board.isValidMove_noMove [Build] (b : Board) : b.isValidMove .noMove = false := by
  have hnull : Move.noMove.isNull = false := by decide
  have hcastle : Move.noMove.isCastle = false := by decide
  have hcapture : Move.noMove.isCapture = false := by decide
  have hep : Move.noMove.isEnpassant = false := by decide
  have hsame : Move.noMove.toSq = Move.noMove.fromSq := by decide
  unfold isValidMove destinationValid
  simp only [hnull, hcastle, hcapture, hep, hsame, Bool.false_eq_true, if_false]
  cases b.colorAt Move.noMove.fromSq <;> simp

instance bookGame [Build] : BookGame Board Move where
  makeMove := Board.makeMove
  noMove_invalid := Board.isValidMove_noMove

instance : MoveOrder Move := ⟨Move.less, inferInstance, inferInstance⟩

end Chess

namespace Xiangqi

/-- The number of a square in the source. -/
def squareCode (sq : Option Square) : Int := sq.elim (-1) (fun s => s.val)

/-- The number of a piece in the source. -/
def pieceCode : Option Piece → Int
  | none => -1
  | some .pawn => 0
  | some .guard => 1
  | some .elephant => 2
  | some .knight => 3
  | some .cannon => 4
  | some .rook => 5
  | some .king => 6

theorem squareCode_injective : Function.Injective squareCode := by
  rintro (_ | s) (_ | t) h
  · rfl
  · simp only [squareCode, Option.elim_none, Option.elim_some] at h
    omega
  · simp only [squareCode, Option.elim_none, Option.elim_some] at h
    omega
  · have hval : s.val = t.val := by simpa [squareCode] using h
    rw [Fin.ext hval]

theorem pieceCode_injective : Function.Injective pieceCode := by
  decide

namespace Move

/-- `operator<` -/
def less (a b : Move) : Prop :=
  if squareCode a.movFrom < squareCode b.movFrom then True
  else if squareCode a.movFrom > squareCode b.movFrom then False
  else if squareCode a.movTo < squareCode b.movTo then True
  else if squareCode a.movTo > squareCode b.movTo then False
  else if pieceCode a.movPtype < pieceCode b.movPtype then True
  else if pieceCode a.movPtype > pieceCode b.movPtype then False
  else if pieceCode a.movCapPtype < pieceCode b.movCapPtype then True
  else if pieceCode a.movCapPtype > pieceCode b.movCapPtype then False
  else a.movFlags < b.movFlags

instance : DecidableRel less := fun a b => by unfold less; infer_instance

theorem less_iff (a b : Move) : less a b ↔
    squareCode a.movFrom < squareCode b.movFrom ∨ (squareCode a.movFrom = squareCode b.movFrom ∧
      (squareCode a.movTo < squareCode b.movTo ∨ (squareCode a.movTo = squareCode b.movTo ∧
        (pieceCode a.movPtype < pieceCode b.movPtype ∨ (pieceCode a.movPtype = pieceCode b.movPtype ∧
          (pieceCode a.movCapPtype < pieceCode b.movCapPtype ∨
            (pieceCode a.movCapPtype = pieceCode b.movCapPtype ∧
              a.movFlags.toNat < b.movFlags.toNat))))))) := by
  simp only [less, BitVec.lt_def, gt_iff_lt]
  grind

instance : IsStrictTotalOrder Move less where
  trichotomous a b hab hba := by
    rw [less_iff] at hab hba
    have hsrc : a.movFrom = b.movFrom := squareCode_injective (by omega)
    have hdst : a.movTo = b.movTo := squareCode_injective (by omega)
    have hpiece : a.movPtype = b.movPtype := pieceCode_injective (by omega)
    have hcap : a.movCapPtype = b.movCapPtype := pieceCode_injective (by omega)
    have hflags : a.movFlags = b.movFlags := BitVec.eq_of_toNat_eq (by omega)
    obtain ⟨src, dst, piece, cap, flags⟩ := a
    simp only at hsrc hdst hpiece hcap hflags
    subst hsrc hdst hpiece hcap hflags
    rfl
  irrefl a h := by
    rw [less_iff] at h
    omega
  trans a b c hab hbc := by
    rw [less_iff] at *
    omega

end Move

instance bookGame [Keys] : BookGame Board Move where
  hashkey := Board.hashkey
  isValid mov board := board.isValidMove mov
  isLegal mov board := board.isLegalMove mov
  makeMove board mov := board.makeMove mov
  noMove_invalid _ := rfl

instance : MoveOrder Move := ⟨Move.less, inferInstance, inferInstance⟩

end Xiangqi

/-! ## Reading the games -/

/-- What `create_from_pgn` asks of a parsed `PGN`. -/
structure Pgn (Brd Mov : Type) where
  opening : Brd
  moves : List Mov

/-- The map from hash keys to the moves that were played. -/
abbrev PgnMap (Mov : Type) := OrderedMap (BitVec 64) (List Mov) (· < ·)

namespace Book

section Reading

variable {Brd Mov : Type} [BookMove Mov] [BookGame Brd Mov]

open BookBoard BookGame

/-- The loop over the moves of a game; the counter is an `unsigned int`. -/
def readMoves (depth : BitVec 32) : Brd → List Mov → BitVec 32 → PgnMap Mov → Option (PgnMap Mov)
  | _, [], _, pgnmap => some pgnmap
  | board, mov :: moves, i, pgnmap =>
    if !(isValid mov board && isLegal mov board) then none
    else
      let pgnmap := pgnmap.update [] (hashkey board) (· ++ [mov])
      let i := i + 1
      -- the move has been recorded before the counter is tested
      if depth < i ∧ 0#32 < depth then some pgnmap
      else readMoves depth (makeMove board mov) moves i pgnmap

/-- The loop over the games that `PGN::parse` accepts. -/
def readPgns (depth : BitVec 32) (pgns : List (Pgn Brd Mov)) : Option (PgnMap Mov) :=
  pgns.foldlM (fun pgnmap pgn => readMoves depth pgn.opening pgn.moves 0#32 pgnmap) .empty

/-! ## What a book is made of -/

/-- The moves of a game, each with the key of the position in which it is played. -/
def played : Brd → List Mov → List (BitVec 64 × Mov)
  | _, [] => []
  | board, mov :: moves => (hashkey board, mov) :: played (makeMove board mov) moves

/-- Every move passes the assertions in its position. -/
def Playable : Brd → List Mov → Prop
  | _, [] => True
  | board, mov :: moves =>
    (isValid mov board = true ∧ isLegal mov board = true) ∧ Playable (makeMove board mov) moves

/-- **The first `depth` moves of each game**, or all moves for 0. -/
def firstMoves (depth : BitVec 32) (pgns : List (Pgn Brd Mov)) : List (BitVec 64 × Mov) :=
  pgns.flatMap fun pgn =>
    if depth = 0#32 then played pgn.opening pgn.moves
    else (played pgn.opening pgn.moves).take depth.toNat

/-- The moves for one key. -/
def movesAt (k : BitVec 64) (l : List (BitVec 64 × Mov)) : List Mov :=
  (l.filter (·.1 = k)).map Prod.snd

@[simp] theorem played_length (board : Brd) (moves : List Mov) :
    (played board moves).length = moves.length := by
  induction moves generalizing board with
  | nil => rfl
  | cons mov moves ih => simp [played, ih]

/-- How many of `n` moves the loop records. -/
def recorded (depth : BitVec 32) : BitVec 32 → Nat → Nat
  | _, 0 => 0
  | i, n + 1 => if depth < i + 1 ∧ 0#32 < depth then 1 else recorded depth (i + 1) n + 1

theorem recorded_of_unbounded {depth : BitVec 32} (h : ∀ i, ¬(depth < i ∧ 0#32 < depth))
    (i : BitVec 32) (n : Nat) : recorded depth i n = n := by
  induction n generalizing i with
  | zero => rfl
  | succ n ih => rw [recorded, if_neg (h _), ih]

theorem recorded_of_bounded {depth : BitVec 32} (h0 : 0 < depth.toNat) (hmax : depth.toNat + 1 < 2 ^ 32)
    {i : BitVec 32} (hi : i.toNat ≤ depth.toNat) (n : Nat) :
    recorded depth i n = min n (depth.toNat + 1 - i.toNat) := by
  induction n generalizing i with
  | zero => rw [recorded, Nat.zero_min]
  | succ n ih =>
    have hnext : (i + 1).toNat = i.toNat + 1 := by
      rw [BitVec.toNat_add]
      exact Nat.mod_eq_of_lt (show i.toNat + 1 < 2 ^ 32 by omega)
    rw [recorded]
    by_cases hstop : depth < i + 1 ∧ 0#32 < depth
    · have hlast := BitVec.lt_def.mp hstop.1
      rw [if_pos hstop]
      omega
    · have hmore : (i + 1).toNat ≤ depth.toNat := by
        rw [← Nat.not_lt]
        exact fun hlt => hstop ⟨BitVec.lt_def.mpr hlt, BitVec.lt_def.mpr h0⟩
      rw [if_neg hstop, ih hmore]
      omega

/-- **One move more than the limit says**; only a limit of 2³² - 1 is none at all. -/
theorem recorded_eq (depth : BitVec 32) (n : Nat) : recorded depth 0#32 n =
    if depth = 0#32 ∨ depth = BitVec.allOnes 32 then n else min n (depth.toNat + 1) := by
  split
  · rename_i h
    apply recorded_of_unbounded
    rintro i ⟨hlt, hpos⟩
    rcases h with rfl | rfl
    · exact BitVec.lt_irrefl _ hpos
    · have hi := BitVec.lt_def.mp hlt
      rw [BitVec.toNat_allOnes] at hi
      have hlast := i.isLt
      omega
  · rename_i h
    obtain ⟨hzero, hones⟩ := not_or.mp h
    have h0 : 0 < depth.toNat := Nat.pos_of_ne_zero fun he => hzero (BitVec.eq_of_toNat_eq he)
    have hmax : depth.toNat ≠ 2 ^ 32 - 1 := fun he =>
      hones (BitVec.eq_of_toNat_eq (he.trans BitVec.toNat_allOnes.symm))
    have hlt := depth.isLt
    rw [recorded_of_bounded h0 (by omega) (by simp)]
    simp

/-- The moves that are read from the games. -/
def recordedMoves (depth : BitVec 32) (pgns : List (Pgn Brd Mov)) : List (BitVec 64 × Mov) :=
  pgns.flatMap fun pgn =>
    (played pgn.opening pgn.moves).take (recorded depth 0#32 pgn.moves.length)

/-- `pgnmap[key].push_back(mov)` -/
def pushBack (pgnmap : PgnMap Mov) (e : BitVec 64 × Mov) : PgnMap Mov :=
  pgnmap.update [] e.1 (· ++ [e.2])

theorem readMoves_eq (depth : BitVec 32) {board : Brd} {moves : List Mov} (h : Playable board moves)
    (i : BitVec 32) (pgnmap : PgnMap Mov) : readMoves depth board moves i pgnmap =
      some (((played board moves).take (recorded depth i moves.length)).foldl pushBack pgnmap) := by
  induction moves generalizing board i pgnmap with
  | nil => rfl
  | cons mov moves ih =>
    obtain ⟨⟨hvalid, hlegal⟩, hrest⟩ := h
    simp only [readMoves, hvalid, hlegal, Bool.and_self, Bool.not_true, Bool.false_eq_true, if_false,
      List.length_cons, recorded, played]
    split
    · rw [List.take_succ_cons, List.take_zero]
      rfl
    · rw [ih hrest, List.take_succ_cons]
      rfl

/-- **The map holds the recorded moves.** -/
theorem readPgns_eq (depth : BitVec 32) {pgns : List (Pgn Brd Mov)}
    (h : ∀ pgn ∈ pgns, Playable pgn.opening pgn.moves) :
    readPgns depth pgns = some ((recordedMoves depth pgns).foldl pushBack .empty) := by
  have hrun : ∀ pgnmap : PgnMap Mov,
      pgns.foldlM (fun pgnmap pgn => readMoves depth pgn.opening pgn.moves 0#32 pgnmap) pgnmap =
        some ((recordedMoves depth pgns).foldl pushBack pgnmap) := by
    induction pgns with
    | nil => exact fun _ => rfl
    | cons pgn pgns ih =>
      intro pgnmap
      rw [List.foldlM_cons, readMoves_eq depth (h pgn List.mem_cons_self)]
      simp only [Option.bind_eq_bind, Option.bind_some, recordedMoves, List.flatMap_cons,
        List.foldl_append]
      exact ih (fun pgn hmem => h pgn (List.mem_cons_of_mem _ hmem)) _
  exact hrun .empty

omit [BookMove Mov] in
theorem find_pushBack (l : List (BitVec 64 × Mov)) (k : BitVec 64) :
    (l.foldl pushBack (.empty : PgnMap Mov)).find k =
      if movesAt k l = [] then none else some (movesAt k l) := by
  have hpush : ∀ (l : List (BitVec 64 × Mov)) (init : List Mov),
      l.foldl (fun v e => v ++ [e.2]) init = init ++ l.map Prod.snd := by
    intro l
    induction l with
    | nil => simp
    | cons e l ih => simp [ih]
  have h := @OrderedMap.find_collect _ _ _ (fun a b : BitVec 64 => a < b) _ _ _ ([] : List Mov) Prod.fst
    (fun v e => v ++ [e.2]) l k
  rw [hpush, List.nil_append] at h
  simp only [movesAt, List.map_eq_nil_iff]
  exact h

/-! ## The depth limit -/

/-- Lists agree at every key if and only if they agree as a whole. -/
theorem forall_movesAt_perm_iff (l l' : List (BitVec 64 × Mov)) :
    (∀ k, (movesAt k l).Perm (movesAt k l')) ↔ l.Perm l' := by
  have hcount : ∀ (k : BitVec 64) (mov : Mov) (l : List (BitVec 64 × Mov)),
      (movesAt k l).count mov = l.count (k, mov) := by
    intro k mov l
    rw [movesAt, List.count_eq_countP, List.countP_map, List.countP_filter, List.count_eq_countP]
    refine List.countP_congr fun e _ => ?_
    obtain ⟨k', mov'⟩ := e
    simp [and_comm]
  constructor
  · intro h
    rw [List.perm_iff_count]
    rintro ⟨k, mov⟩
    rw [← hcount, ← hcount]
    exact (h k).count_eq mov
  · intro h k
    exact (h.filter _).map _

/-- The number of moves of a game that are within the limit. -/
def limit (depth : BitVec 32) (n : Nat) : Nat := if depth = 0#32 then n else min depth.toNat n

theorem limit_le_recorded (depth : BitVec 32) (n : Nat) : limit depth n ≤ recorded depth 0#32 n := by
  rw [limit, recorded_eq]
  grind

/-- Too many moves are read from a game exactly if it is longer than the limit. -/
theorem recorded_le_iff (depth : BitVec 32) (n : Nat) :
    recorded depth 0#32 n ≤ limit depth n ↔ depth = 0#32 ∨ n ≤ depth.toNat := by
  rw [limit, recorded_eq]
  by_cases hzero : depth = 0#32
  · simp [hzero]
  · simp only [hzero, if_false, false_or]
    split <;> omega

theorem recordedMoves_cons (depth : BitVec 32) (pgn : Pgn Brd Mov) (pgns : List (Pgn Brd Mov)) :
    (recordedMoves depth (pgn :: pgns)).length =
      recorded depth 0#32 pgn.moves.length + (recordedMoves depth pgns).length := by
  have hle : recorded depth 0#32 pgn.moves.length ≤ pgn.moves.length := by
    rw [recorded_eq]
    split <;> omega
  simp only [recordedMoves, List.flatMap_cons, List.length_append, List.length_take, played_length,
    Nat.min_eq_left hle]

theorem firstMoves_cons (depth : BitVec 32) (pgn : Pgn Brd Mov) (pgns : List (Pgn Brd Mov)) :
    (firstMoves depth (pgn :: pgns)).length =
      limit depth pgn.moves.length + (firstMoves depth pgns).length := by
  simp only [firstMoves, List.flatMap_cons, List.length_append, limit]
  split <;> simp

theorem firstMoves_length_le (depth : BitVec 32) (pgns : List (Pgn Brd Mov)) :
    (firstMoves depth pgns).length ≤ (recordedMoves depth pgns).length := by
  induction pgns with
  | nil => rfl
  | cons pgn pgns ih =>
    have hle := limit_le_recorded depth pgn.moves.length
    rw [firstMoves_cons, recordedMoves_cons]
    omega

theorem recorded_perm_iff (depth : BitVec 32) (pgns : List (Pgn Brd Mov)) :
    (recordedMoves depth pgns).Perm (firstMoves depth pgns) ↔
      depth = 0#32 ∨ ∀ pgn ∈ pgns, pgn.moves.length ≤ depth.toNat := by
  constructor
  · intro h
    have hlen := h.length_eq
    clear h
    induction pgns with
    | nil => exact .inr fun _ hmem => absurd hmem List.not_mem_nil
    | cons pgn pgns ih =>
      rw [recordedMoves_cons, firstMoves_cons] at hlen
      have hhead := limit_le_recorded depth pgn.moves.length
      have htail := firstMoves_length_le depth pgns
      have hfirst := (recorded_le_iff depth pgn.moves.length).mp (by omega)
      have hrest := ih (by omega)
      simp only [List.forall_mem_cons]
      tauto
  · intro h
    have hsame : ∀ pgn ∈ pgns, (played pgn.opening pgn.moves).take
        (recorded depth 0#32 pgn.moves.length) = if depth = 0#32 then played pgn.opening pgn.moves
          else (played pgn.opening pgn.moves).take depth.toNat := by
      intro pgn hmem
      have hfirst : depth = 0#32 ∨ pgn.moves.length ≤ depth.toNat := h.imp_right fun h => h pgn hmem
      have hall : pgn.moves.length ≤ recorded depth 0#32 pgn.moves.length := by
        rw [recorded_eq]
        grind
      rw [List.take_of_length_le (by rw [played_length]; exact hall)]
      split
      · rfl
      · rename_i hne
        rw [List.take_of_length_le (by rw [played_length]; exact hfirst.resolve_left hne)]
    rw [recordedMoves, firstMoves, List.flatMap_congr hsame]

/-- **When the map holds the first `depth` moves of each game.** -/
theorem depthLimit_iff (depth : BitVec 32) (pgns : List (Pgn Brd Mov))
    (h : ∀ pgn ∈ pgns, Playable pgn.opening pgn.moves) :
    ∃ pgnmap : PgnMap Mov, readPgns depth pgns = some pgnmap ∧
      ((∀ k, (((pgnmap.find k).getD [] : List Mov) : Multiset Mov) =
          (movesAt k (firstMoves depth pgns) : Multiset Mov)) ↔
        depth = 0#32 ∨ ∀ pgn ∈ pgns, pgn.moves.length ≤ depth.toNat) := by
  refine ⟨_, readPgns_eq depth h, ?_⟩
  have hfind : ∀ k, (((recordedMoves depth pgns).foldl pushBack (.empty : PgnMap Mov)).find k).getD [] =
      movesAt k (recordedMoves depth pgns) := by
    intro k
    rw [find_pushBack]
    split
    · rename_i hnil
      rw [hnil, Option.getD_none]
    · rfl
  simp only [hfind, Multiset.coe_eq_coe]
  rw [forall_movesAt_perm_iff, recorded_perm_iff]

end Reading

/-! ## A game of two moves -/

section Sample

open Chess

/-- A game of the moves 1. e4 e5. -/
def openGame (board : Chess.Board) : Pgn Chess.Board Chess.Move :=
  ⟨board, [Game.kingsPawn, Game.kingsPawnBack]⟩

theorem openGame_playable : ∃ board, @Board.parseFen sampleBuild openingFen = .accepted board ∧
    @Playable _ _ _ (@Chess.bookGame sampleBuild) board (openGame board).moves := by
  obtain ⟨board, hboard, hfirst, hsecond⟩ := Game.openGame_asserted
  exact ⟨board, hboard, hfirst, hsecond, trivial⟩

/-- With a limit of one move the answer is in the map. -/
theorem depthLimit_exceeded : ∃ board, @Board.parseFen sampleBuild openingFen = .accepted board ∧
    ∃ pgnmap, @readPgns _ _ _ (@Chess.bookGame sampleBuild) 1#32 [openGame board] = some pgnmap ∧
      ∃ k, pgnmap.find k = some [Game.kingsPawnBack] ∧
        movesAt k (@firstMoves _ _ _ (@Chess.bookGame sampleBuild) 1#32 [openGame board]) = [] := by
  let _ := sampleBuild
  have hrun : (Board.parseFen openingFen).holds (fun b =>
      (readPgns 1#32 [openGame b]).any fun pgnmap =>
        decide (pgnmap.find (b.makeMove Game.kingsPawn).hashkey = some [Game.kingsPawnBack]) &&
        decide (movesAt (b.makeMove Game.kingsPawn).hashkey (firstMoves 1#32 [openGame b]) = [])) =
      true := by
    decide +kernel
  obtain ⟨board, hboard, hread⟩ := FenResult.holds_eq_true.mp hrun
  obtain ⟨pgnmap, hmap, hkey⟩ := (Option.any_eq_true _ _).mp hread
  obtain ⟨hfound, hfirst⟩ := (Bool.and_eq_true _ _).mp hkey
  exact ⟨board, hboard, pgnmap, hmap, _, of_decide_eq_true hfound, of_decide_eq_true hfirst⟩

/-- A limit of two moves is kept. -/
theorem depthLimit_openGame : ∃ board, @Board.parseFen sampleBuild openingFen = .accepted board ∧
    ∃ pgnmap, @readPgns _ _ _ (@Chess.bookGame sampleBuild) 2#32 [openGame board] = some pgnmap ∧
      ((∀ k, (((pgnmap.find k).getD [] : List Chess.Move) : Multiset Chess.Move) =
        (movesAt k (@firstMoves _ _ _ (@Chess.bookGame sampleBuild) 2#32 [openGame board]) :
          Multiset Chess.Move)) ↔
        2#32 = 0#32 ∨ ∀ pgn ∈ [openGame board], pgn.moves.length ≤ (2#32).toNat) := by
  let _ := sampleBuild
  obtain ⟨board, hboard, hplay⟩ := openGame_playable
  exact ⟨board, hboard, depthLimit_iff 2#32 [openGame board] (List.forall_mem_singleton.mpr hplay)⟩

end Sample

end Book

end HoiChess
