import Postings.Bits.Basic
import Postings.Bytes

/-!
# Bit strings on disk

A stored bit string is its size in bits, a 64-bit number, and its words.  The
words of a stored string must be clear past the size, so that every byte string
that is accepted is the stored form of what was read from it.
-/

namespace Postings
namespace BitString

/-- The stored form. -/
def store (v : BitString) : List UInt8 :=
  leBytes 8 v.size ++ v.words.toList.flatMap fun word => leBytes 8 word.toNat

/-- The bit string of the given words, if there are as many as the size needs and
nothing is set past it. -/
def ofWords? (words : Array UInt64) (size : Nat) : Option BitString :=
  if h : words.size = (size + 63) / 64 ∧ wordAt words (size / 64) < 2 ^ (size % 64) then
    some {
      words
      size
      words_size := h.1
      clear := by
        intro i hi
        by_cases hw : i / 64 = size / 64
        · rw [hw]
          exact Nat.testBit_lt_two_pow
            (Nat.lt_of_lt_of_le h.2 (Nat.pow_le_pow_right (by omega) (by omega)))
        · rw [wordAt_of_size_le (by omega), Nat.zero_testBit] }
  else none

/-- Reads a stored bit string. -/
def load : Loading BitString := do
  let size ← loadU64 "bit vector length"
  let words ← loadU64s "bit vector words" ((size + 63) / 64)
  match ofWords? (words.map Nat.toUInt64).toArray size with
  | some v => return v
  | none => throw (.invalidFormat "bit vector" "bits set past the declared length")

/-- Reads a stored bit string from the front of a list of bytes. -/
def ofStored (bytes : List UInt8) : Except Error BitString :=
  (Attempt.runFrom load bytes).1

end BitString
end Postings
