import Postings.Bits.Universal

/-!
# The header of a posting list

The docs region of a term begins with two numbers: how often the term occurs, in
gamma code, and the number of its postings in as many bits as a number up to the
first one needs.  A term that occurs once has one posting, and its second number
is left out.
-/

namespace Postings

/-- What a docs region says about its list. -/
structure ListHeader where
  /-- The sum of the frequencies. -/
  occurrences : Nat
  /-- The number of postings. -/
  size : Nat
  deriving DecidableEq, Repr

namespace ListHeader

/-- The universe of the running sums of the frequencies, one past their number.  Both are
64-bit numbers, so past the greatest number of occurrences comes zero. -/
def sumsUniv (occurrences : Nat) : Nat := (occurrences + 1) % 2 ^ 64

/-- The width of the number of postings. -/
def sizeBits (occurrences : Nat) : Nat := ceilLog2 (sumsUniv occurrences)

/-- A list has postings, and each of them is an occurrence. -/
def isConsistent (header : ListHeader) : Bool :=
  0 < header.size && header.size ≤ header.occurrences

/-- The stored form. -/
def bits (header : ListHeader) : BitString :=
  let first := BitString.empty.appendGammaPositive header.occurrences
  if 1 < header.occurrences then
    first.appendBits header.size (sizeBits header.occurrences)
  else first

/-- Reads a header and refuses one that no list has. -/
def read (v : BitString) : Reading ListHeader := do
  let occurrences ← v.gammaPositive
  let size ← if 1 < occurrences then v.take (sizeBits occurrences) else pure 1
  let header : ListHeader := ⟨occurrences, size⟩
  if header.isConsistent then return header
  throw (.invalidFormat "posting list header" s!"{size} postings with {occurrences} occurrences")

end ListHeader
end Postings
