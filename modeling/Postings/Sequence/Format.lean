import Postings.Bits.Basic
import Postings.Sequence.Settings

/-!
# Formats of sequences

A sequence is a list of numbers below a *universe*.  A `Format` writes a sequence
at the end of a bit string and opens it again from its offset, its universe and
its length; nothing else about it need be known.  What is opened is a cursor.

A cursor stands at a position of the sequence or past its end, where the value it
shows is the universe.  It can be moved to a position, one step on, or to the
first value that is not below a bound, and it can tell the value before the one
it stands at.  Formats nest: a partitioned format is given the format of its
partitions.
-/

namespace Postings

/-- A computation that writes at the end of a bit string. -/
abbrev Writing (α : Type) := Attempt BitString α

/-- The operations of a cursor over a stored sequence.  A walk over damaged data
fails as `Failure.corrupt`. -/
class SequenceCursor (γ : Type) where
  /-- The number of values. -/
  size : γ → Nat
  /-- Where the cursor stands; `size` is past the end. -/
  position : γ → Nat
  /-- The value there; the universe past the end. -/
  value : γ → Nat
  /-- Moves to a position up to `size`. -/
  moveTo : γ → Nat → Except Failure γ
  /-- Moves one position on; the cursor must not be past the end. -/
  next : γ → Except Failure γ
  /-- Moves to the first value that is at least the bound, or past the end. -/
  nextGeq : γ → Nat → Except Failure γ
  /-- The value before the position; zero at the first position. -/
  prevValue : γ → Except Failure Nat

/-- What a sequence turned out to be when it was opened. -/
inductive Shape where
  /-- There is one way only. -/
  | plain
  /-- All values below the universe. -/
  | allOnes
  /-- One bit for each number below the universe. -/
  | bitmap
  /-- Blocks of gaps. -/
  | blocks
  /-- This many partitions. -/
  | partitions (count : Nat)
  deriving DecidableEq, Repr

/-- A way to store a sequence. -/
structure Format where
  /-- The cursors over sequences of this format. -/
  Cursor : Type
  /-- Their operations. -/
  [cursor : SequenceCursor Cursor]
  /-- Writes values below a universe. -/
  write : (values : List Nat) → (univ : Nat) → Params → BuildConfig → Writing Unit
  /-- Opens the sequence of `n` values written at `offset`. -/
  openAt : (bits : BitString) → (offset univ n : Nat) → Params → Except Failure Cursor
  /-- What the opened sequence is. -/
  shape : Cursor → Shape := fun _ => .plain

attribute [instance] Format.cursor

/-- A format for tables of upper bounds: where a table ends follows from its
length and universe alone. -/
structure TableFormat extends Format where
  /-- The position after a table of `n` values written at `offset`. -/
  regionEnd : (offset univ n : Nat) → Params → Nat

end Postings
