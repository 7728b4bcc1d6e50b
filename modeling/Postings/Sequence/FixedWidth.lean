import Postings.Bits.Scan
import Postings.Sequence.Format
import Postings.Sequence.Monotone

/-!
# Values of 32 bits

A non-decreasing sequence written as it is, 32 bits a value, from a byte boundary.
It takes more room than Elias-Fano, but any value is one read away, and a bound is
found by halving.
-/

namespace Postings
namespace FixedWidth

/-- The width of a value. -/
def width : Nat := 32

/-- The position after `n` values written at `offset`. -/
def regionEnd (offset _univ n : Nat) (_ : Params) : Nat :=
  alignUp offset 8 + n * width

/-- The list must be non-empty, non-decreasing and below its universe, and its
values must fit the width. -/
def checkValues (values : List Nat) (univ : Nat) : Except Error Unit := do
  checkArgument "values" "!values.is_empty()" (!values.isEmpty)
  if let some _ := firstAdjacent (fun a b => decide (b < a)) 0 values then
    throw (.invalidArgument "values" "sequence is not sorted")
  let last := values.getLastD 0
  checkArgument "universe" "last < universe" (last < univ)
  if 2 ^ width ≤ last then
    throw (.codecOverflow "uncompressed upper bounds" last)

/-- Writes a non-decreasing sequence. -/
def write (values : List Nat) (univ : Nat) (_ : Params) (_ : BuildConfig) : Writing Unit := do
  checkValues values univ
  modify fun bits => values.foldl (fun bits v => bits.appendBits v width) (bits.padTo 8)

/-- A cursor over values of fixed width. -/
structure Cursor where
  /-- The bit string of the region. -/
  bits : BitString
  /-- Where the first value is. -/
  start : Nat
  /-- The number of values. -/
  n : Nat
  /-- The universe. -/
  univ : Nat
  /-- The position in the sequence. -/
  position : Nat
  /-- The value there. -/
  value : Nat

namespace Cursor

variable (c : Cursor)

/-- Value `i`. -/
def get (i : Nat) : Nat :=
  c.bits.getBits (c.start + i * width) width

/-- Moves to a position. -/
def moveTo (position : Nat) : Cursor :=
  { c with position, value := if position < c.n then c.get position else c.univ }

/-- The first of the positions from `low` to `high` whose value is at least
`bound`, found by halving. -/
def search (bound low high : Nat) : Nat :=
  if low < high then
    let middle := low + (high - low) / 2
    if c.get middle < bound then search bound (middle + 1) high
    else search bound low middle
  else low
termination_by high - low

/-- Moves to the first value that is at least `bound`.  A bound above the current
value leaves only what follows. -/
def nextGeq (bound : Nat) : Cursor :=
  let first := if c.position < c.n ∧ c.value < bound then c.position + 1 else 0
  c.moveTo (c.search bound first c.n)

instance : SequenceCursor Cursor where
  size := n
  position := position
  value := value
  moveTo c position := .ok (c.moveTo position)
  next c := .ok (c.moveTo (c.position + 1))
  nextGeq c bound := .ok (c.nextGeq bound)
  prevValue c := .ok (if c.position = 0 then 0 else c.get (c.position - 1))

end Cursor

/-- Opens a region of `n` values. -/
def openAt (bits : BitString) (offset univ n : Nat) (_ : Params) : Except Failure Cursor := do
  let start := alignUp offset 8
  bits.checkRange "uncompressed upper bounds" start (n * width)
  return Cursor.moveTo ⟨bits, start, n, univ, 0, 0⟩ 0

/-- Values of 32 bits as a format of tables. -/
def format : TableFormat where
  Cursor := Cursor
  write := write
  openAt := openAt
  regionEnd := regionEnd

end FixedWidth
end Postings
