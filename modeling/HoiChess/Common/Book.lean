import HoiChess.Lib.ByteOrder
import HoiChess.Lib.Probing
import HoiChess.Chess.Validity
import HoiChess.Xiangqi.Basic
import Mathlib.Data.Vector.Basic

/-!
# The opening book

A book is a file with a header and one entry for each slot, which hold up to four moves
with their counts.  Both are converted between the byte orders of the file and of the host
word by word; a converted entry is what it was if and only if its moves are
(`b2h_h2b_entry_iff`), and `HoiXiangqi` loses them (`byteOrder_roundTrip_iff`).  Reading,
writing and looking up stop with `none` where the source calls `BUG`, divides by zero or
reads beyond the end of the file.
-/

namespace HoiChess

open ByteOrder

/-! ## Byte order -/

/-- `reverse_byte_order(uint32_t)` -/
def reverseByteOrder32 (a : BitVec 32) : BitVec 32 :=
  setByte (getByte a 0) 3 ||| setByte (getByte a 1) 2 ||| setByte (getByte a 2) 1 |||
    setByte (getByte a 3) 0

/-- `reverse_byte_order(uint64_t)` -/
def reverseByteOrder64 (a : BitVec 64) : BitVec 64 :=
  setByte (getByte a 0) 7 ||| setByte (getByte a 1) 6 ||| setByte (getByte a 2) 5 |||
    setByte (getByte a 3) 4 ||| setByte (getByte a 4) 3 ||| setByte (getByte a 5) 2 |||
    setByte (getByte a 6) 1 ||| setByte (getByte a 7) 0

theorem reverseByteOrder32_eq (a : BitVec 32) : reverseByteOrder32 a = reverseBytes 4 a := by
  simp only [reverseBytes, List.range_succ, List.range_zero, List.nil_append, List.cons_append,
    List.map_cons, List.map_nil, List.foldr_cons, List.foldr_nil]
  rw [reverseByteOrder32, BitVec.or_zero, BitVec.or_assoc, BitVec.or_assoc]

theorem reverseByteOrder64_eq (a : BitVec 64) : reverseByteOrder64 a = reverseBytes 8 a := by
  simp only [reverseBytes, List.range_succ, List.range_zero, List.nil_append, List.cons_append,
    List.map_cons, List.map_nil, List.foldr_cons, List.foldr_nil]
  rw [reverseByteOrder64]
  simp only [BitVec.or_zero, BitVec.or_assoc]

attribute [local irreducible] reverseByteOrder32 reverseByteOrder64

@[simp] theorem reverseByteOrder32_twice (a : BitVec 32) :
    reverseByteOrder32 (reverseByteOrder32 a) = a :=
  calc reverseByteOrder32 (reverseByteOrder32 a)
    _ = reverseBytes 4 (reverseByteOrder32 a) := reverseByteOrder32_eq _
    _ = reverseBytes 4 (reverseBytes 4 a) := congrArg _ (reverseByteOrder32_eq a)
    _ = a := reverseBytes_reverseBytes (k := 4) rfl a

@[simp] theorem reverseByteOrder64_twice (a : BitVec 64) :
    reverseByteOrder64 (reverseByteOrder64 a) = a :=
  calc reverseByteOrder64 (reverseByteOrder64 a)
    _ = reverseBytes 8 (reverseByteOrder64 a) := reverseByteOrder64_eq _
    _ = reverseBytes 8 (reverseBytes 8 a) := congrArg _ (reverseByteOrder64_eq a)
    _ = a := reverseBytes_reverseBytes (k := 8) rfl a

/-! ## Header and entries -/

structure BookHeader where
  size : BitVec 32
  magic : BitVec 32
  deriving DecidableEq

namespace BookHeader

def h2b (h : BookHeader) (swapByteorder : Bool) : BookHeader :=
  if !swapByteorder then h
  else { size := reverseByteOrder32 h.size, magic := reverseByteOrder32 h.magic }

def b2h (b : BookHeader) (swapByteorder : Bool) : BookHeader :=
  if !swapByteorder then b else h2b b swapByteorder

/-- **No header is lost.** -/
theorem b2h_h2b (h : BookHeader) (swapByteorder : Bool) :
    b2h (h2b h swapByteorder) swapByteorder = h := by
  cases swapByteorder <;> simp [b2h, h2b]

end BookHeader

/-- What the book needs to know of the moves of the game it is compiled for. -/
class BookMove (Mov : Type) where
  decEq : DecidableEq Mov
  magic : BitVec 32
  noMove : Mov
  /-- What `h2b` leaves in the slot of a move when it changes the byte order. -/
  h2bMove : Mov → Mov

instance (Mov : Type) [BookMove Mov] : DecidableEq Mov := BookMove.decEq

/-- The move word is what `operator uint32_t` gives, so the 32-bit function reverses it. -/
instance : BookMove Chess.Move where
  decEq := inferInstance
  magic := 0xdaabaffe#32
  noMove := .noMove
  h2bMove mov := ⟨reverseByteOrder32 mov.mov⟩

/-- The assignment to the slot is compiled for `HOICHESS` only. -/
instance : BookMove Xiangqi.Move where
  decEq := inferInstance
  magic := 0x6a8dda83#32
  noMove := .noMove
  h2bMove _ := .noMove

/-- `NR_MOVES` -/
abbrev nrMoves : Nat := 4

structure BookEntry (Mov : Type) where
  hashkey : BitVec 64
  move : Vector Mov nrMoves
  count : Vector (BitVec 32) nrMoves
  deriving DecidableEq

namespace BookEntry

variable {Mov : Type} [BookMove Mov]

/-- `BookEntry()` -/
def blank : BookEntry Mov where
  hashkey := 0#64
  move := Vector.replicate nrMoves BookMove.noMove
  count := Vector.replicate nrMoves 0#32

def isEmpty (e : BookEntry Mov) : Bool := e.move[0] = BookMove.noMove

def h2b (h : BookEntry Mov) (swapByteorder : Bool) : BookEntry Mov :=
  if !swapByteorder then h
  else
    { hashkey := reverseByteOrder64 h.hashkey
      move := h.move.map BookMove.h2bMove
      count := h.count.map reverseByteOrder32 }

def b2h (b : BookEntry Mov) (swapByteorder : Bool) : BookEntry Mov :=
  if !swapByteorder then b else h2b b swapByteorder

/-- **Exactly the moves can be lost.** -/
theorem b2h_h2b_entry_iff (e : BookEntry Mov) (swapByteorder : Bool) :
    b2h (h2b e swapByteorder) swapByteorder = e ↔
      swapByteorder = false ∨
        ∀ i : Fin nrMoves, BookMove.h2bMove (BookMove.h2bMove e.move[i]) = e.move[i] := by
  obtain ⟨hashkey, move, count⟩ := e
  cases swapByteorder with
  | false => simp [b2h, h2b]
  | true =>
    have hcount : (count.map reverseByteOrder32).map reverseByteOrder32 = count := by
      ext i hi
      simp
    simp only [b2h, h2b, Bool.not_true, Bool.false_eq_true, if_false, BookEntry.mk.injEq,
      reverseByteOrder64_twice, hcount, true_and, and_true, false_or, reduceCtorEq]
    constructor
    · intro h i
      have hi := congrArg (fun v => v[i]) h
      simpa using hi
    · intro h
      ext i hi
      simpa using h ⟨i, hi⟩

end BookEntry

/-- The two programs that are built from the sources. -/
inductive Program where
  | hoichess
  | hoixiangqi
  deriving DecidableEq

/-- The moves of the game that a program plays. -/
def Program.Mov : Program → Type
  | .hoichess => Chess.Move
  | .hoixiangqi => Xiangqi.Move

instance : (program : Program) → BookMove program.Mov
  | .hoichess => inferInstanceAs (BookMove Chess.Move)
  | .hoixiangqi => inferInstanceAs (BookMove Xiangqi.Move)

theorem h2bMove_twice_iff (program : Program) (mov : program.Mov) :
    BookMove.h2bMove (BookMove.h2bMove mov) = mov ↔
      program = .hoichess ∨ mov = BookMove.noMove := by
  cases program with
  | hoichess =>
    refine iff_of_true ?_ (.inl rfl)
    exact congrArg Chess.Move.mk (reverseByteOrder32_twice _)
  | hoixiangqi =>
    constructor
    · intro h
      exact .inr h.symm
    · rintro (h | h)
      · cases h
      · exact h.symm

/-- **When converting forth and back changes nothing**, in either program. -/
theorem byteOrder_roundTrip_iff (program : Program) (h : BookHeader) (e : BookEntry program.Mov)
    (swapByteorder : Bool) :
    (BookHeader.b2h (h.h2b swapByteorder) swapByteorder = h ∧
      BookEntry.b2h (e.h2b swapByteorder) swapByteorder = e) ↔
    program = .hoichess ∨ swapByteorder = false ∨
      ∀ i : Fin nrMoves, e.move[i] = BookMove.noMove := by
  rw [and_iff_right (BookHeader.b2h_h2b h swapByteorder), BookEntry.b2h_h2b_entry_iff]
  simp only [h2bMove_twice_iff, forall_or_left]
  rw [or_left_comm]

/-- A chariot's move gets lost in a `HoiXiangqi` book of the other byte order. -/
theorem byteOrder_loses_move : ∃ e : BookEntry Program.hoixiangqi.Mov,
    e.move[0] = Xiangqi.Move.normal 0 9 .rook ∧ BookEntry.b2h (e.h2b true) true ≠ e := by
  refine ⟨⟨1#64, #v[Xiangqi.Move.normal 0 9 .rook, .noMove, .noMove, .noMove],
    #v[1#32, 0#32, 0#32, 0#32]⟩, rfl, fun h => ?_⟩
  rcases (BookEntry.b2h_h2b_entry_iff _ true).mp h with hswap | hmov
  · cases hswap
  · rcases (h2bMove_twice_iff .hoixiangqi _).mp (hmov 0) with hchess | hnone
    · cases hchess
    · have hne : Xiangqi.Move.normal 0 9 .rook ≠ Xiangqi.Move.noMove := by decide
      exact hne hnone

/-! ## Books -/

/-- What the book asks the board of its game. -/
class BookBoard (Brd : Type) (Mov : outParam Type) where
  hashkey : Brd → BitVec 64
  isValid : Mov → Brd → Bool
  isLegal : Mov → Brd → Bool

instance [Chess.Build] : BookBoard Chess.Board Chess.Move where
  hashkey := Chess.Board.hashkey
  isValid mov board := board.isValidMove mov
  isLegal mov board := board.isLegalMove mov

/-- The file of a book, with its words in the byte order of the file; past the last
slot that was written there is nothing. -/
structure BookFile (Mov : Type) where
  header : BookHeader
  slots : Nat → Option (BookEntry Mov)

structure Book (Mov : Type) where
  file : BookFile Mov
  swapByteorder : Bool
  header : BookHeader

namespace Book

variable {Brd Mov : Type} [BookMove Mov] (b : Book Mov)

/-- `Book(filename, &ret)`: open for reading. -/
def openFile (file : BookFile Mov) : Option (Book Mov) :=
  let header := BookHeader.b2h file.header false
  if header.magic = BookMove.magic Mov then some ⟨file, false, header⟩
  else
    let header := BookHeader.b2h file.header true
    if header.magic = BookMove.magic Mov then some ⟨file, true, header⟩ else none

/-- `read_entry(slot)` -/
def readEntry (slot : Nat) : Option (BookEntry Mov) :=
  if b.header.size.toNat ≤ slot then none
  else (b.file.slots slot).map (fun e => e.b2h b.swapByteorder)

/-- `write_entry(slot, entry)` -/
def writeEntry (slot : Nat) (entry : BookEntry Mov) : Option (Book Mov) :=
  if b.header.size.toNat ≤ slot then none
  else some { b with file := { b.file with
    slots := Function.update b.file.slots slot (some (entry.h2b b.swapByteorder)) } }

/-- `Book(filename, size)`: create, with all slots wiped out. -/
def create (Mov : Type) [BookMove Mov] (size : Nat) : Option (Book Mov) :=
  let header : BookHeader := ⟨BitVec.ofNat 32 size, BookMove.magic Mov⟩
  let b : Book Mov := ⟨⟨header.h2b false, fun _ => none⟩, false, header⟩
  (List.range size).foldlM (fun b slot => b.writeEntry slot .blank) b

/-- `hashfunc(hashkey, i)`; the moduli are `header.size` and `header.size - 1`. -/
def hashfunc (hashkey : BitVec 64) (i : Nat) : Option Nat :=
  let size := b.header.size.toNat
  if size ≤ 1 then none
  else some ((hashkey.toNat % size + i * (hashkey.toNat % (size - 1))) % 2 ^ 64 % size)

end Book

/-- The file as the same program writes it on a machine of the other byte order. -/
def BookFile.foreign (file : BookFile Chess.Move) : BookFile Chess.Move where
  header := file.header.h2b true
  slots slot := (file.slots slot).map (fun e => e.h2b true)

/-- **A chess book yields the same entries on a machine of the other byte order.** -/
theorem Book.openFile_foreign {file : BookFile Chess.Move}
    (hmagic : file.header.magic = BookMove.magic Chess.Move) :
    ∃ b b', Book.openFile file = some b ∧ Book.openFile file.foreign = some b' ∧
      b'.header = b.header ∧ ∀ slot, b'.readEntry slot = b.readEntry slot := by
  have hrev : reverseByteOrder32 (BookMove.magic Chess.Move) ≠ BookMove.magic Chess.Move := by
    decide +kernel
  have hheader : file.foreign.header.b2h true = file.header := BookHeader.b2h_h2b file.header true
  refine ⟨⟨file, false, file.header⟩, ⟨file.foreign, true, file.header⟩, ?_, ?_, rfl, fun slot => ?_⟩
  · exact if_pos hmagic
  · have hother : (file.foreign.header.b2h false).magic ≠ BookMove.magic Chess.Move := by
      rw [← hmagic] at hrev ⊢
      exact hrev
    rw [Book.openFile, if_neg hother, hheader, if_pos hmagic]
  · have hentry : ∀ e : BookEntry Chess.Move, (e.h2b true).b2h true = e := fun e =>
      (BookEntry.b2h_h2b_entry_iff e true).mpr (.inr fun i =>
        (h2bMove_twice_iff .hoichess _).mpr (.inl rfl))
    have hhost : ∀ e : BookEntry Chess.Move, e.b2h false = e := fun e => rfl
    simp only [Book.readEntry, BookFile.foreign, Option.map_map, Function.comp_def, hentry, hhost]

/-- `is_valid_and_legal(board)`: all moves up to the first `NO_MOVE`. -/
def BookEntry.isValidAndLegal {Brd Mov : Type} [BookMove Mov] [BookBoard Brd Mov]
    (e : BookEntry Mov) (board : Brd) : Bool :=
  (e.move.toList.takeWhile (fun mov => mov ≠ BookMove.noMove)).all
    (fun mov => BookBoard.isValid mov board && BookBoard.isLegal mov board)

namespace Book

variable {Brd Mov : Type} [BookMove Mov] (b : Book Mov)

section Lookup

variable [BookBoard Brd Mov]

/-- The loop of `lookup`, with `n` rounds to go; the entry is the output parameter. -/
def lookupLoop (board : Brd) : Nat → Nat → BookEntry Mov → Option (Bool × BookEntry Mov)
  | 0, _, entry => some (false, entry)
  | n + 1, i, _ =>
    match (b.hashfunc (BookBoard.hashkey board) i).bind b.readEntry with
    | none => none
    | some entry =>
      if entry.isEmpty then some (false, entry)
      else if entry.hashkey ≠ BookBoard.hashkey board then lookupLoop board n (i + 1) entry
      else if !entry.isValidAndLegal board then some (false, entry)
      else some (true, entry)

def lookup (board : Brd) (entry : BookEntry Mov) : Option (Bool × BookEntry Mov) :=
  b.lookupLoop board b.header.size.toNat 0 entry

end Lookup

/-- The loop of `put`, with `n` rounds to go: where to write, or `some none` for
`return false`. -/
def putLoop (newentry : BookEntry Mov) : Nat → Nat → Nat → Option (Option Nat)
  | 0, _, slot => some (some slot)
  | n + 1, i, _ =>
    match b.hashfunc newentry.hashkey i with
    | none => none
    | some slot =>
      match b.readEntry slot with
      | none => none
      | some oldentry =>
        if oldentry.isEmpty then some (some slot)
        else if oldentry.hashkey ≠ newentry.hashkey then
          if i = b.header.size.toNat - 1 then some none else putLoop newentry n (i + 1) slot
        else some (some slot)

def put (newentry : BookEntry Mov) : Option (Book Mov × Bool) :=
  match b.putLoop newentry b.header.size.toNat 0 0 with
  | none => none
  | some none => some (b, false)
  | some (some slot) => (b.writeEntry slot newentry).map (fun b => (b, true))

end Book

end HoiChess
