import Postings.Sequence.Format

/-!
# Positive numbers as running sums

A list of positive numbers is stored as the strictly increasing list of its
running sums.  A number is the difference of a sum and the sum before it.

The sums have no width here.  A sum that 64 bits do not hold is refused all the
same: it is past every universe, and as a word it would fall below the sum before.
-/

namespace Postings
namespace PrefixSums

/-- The running sums of numbers from `position` on, after the sum `sum`. -/
def sumsOf (position sum : Nat) : List Nat → Except Error (List Nat)
  | [] => return []
  | x :: values =>
      if x = 0 then throw (.invalidArgument "values" s!"value at position {position} is zero")
      else do return (sum + x) :: (← sumsOf (position + 1) (sum + x) values)

/-- Writes positive numbers whose sum is below a universe. -/
def write (format : Format) (values : List Nat) (univ : Nat) (params : Params)
    (config : BuildConfig) : Writing Unit := do
  let sums ← sumsOf 0 0 values
  format.write sums univ params config

/-- A cursor over positive numbers: a cursor over their sums. -/
structure Cursor (format : Format) where
  /-- The cursor over the sums. -/
  sums : format.Cursor

namespace Cursor

variable {format : Format} (c : Cursor format)

/-- The number of values. -/
def size : Nat := SequenceCursor.size c.sums

/-- Where the cursor stands. -/
def position : Nat := SequenceCursor.position c.sums

/-- The number where the cursor of sums stands, with the cursor. -/
def read (sums : format.Cursor) : Except Failure (Nat × Cursor format) := do
  return (SequenceCursor.value sums - (← SequenceCursor.prevValue sums), ⟨sums⟩)

/-- Moves to a position below `size`; answers with the number there. -/
def moveTo (position : Nat) : Except Failure (Nat × Cursor format) := do
  read (← SequenceCursor.moveTo c.sums position)

/-- Moves one position on, still below `size`; answers with the number there. -/
def next : Except Failure (Nat × Cursor format) := do
  read (← SequenceCursor.next c.sums)

end Cursor

/-- Opens `n` positive numbers. -/
def openAt (format : Format) (bits : BitString) (offset univ n : Nat) (params : Params) :
    Except Failure (Cursor format) := do
  return ⟨← format.openAt bits offset univ n params⟩

end PrefixSums
end Postings
