import Postings.Bits.Scan

/-!
# Reading fields in order

A reader walks forward over a bit string.  Its state is the next position, so a
reading is an `Attempt` on a position: it answers with a value or refuses, and in
either case tells where it stands.  A refusal may leave the position past what
was read before it, as when the length of a code is there and its bits are not.
-/

namespace Postings

/-- A computation that reads forward over a bit string; its state is the position
of the next bit. -/
abbrev Reading (α : Type) := Attempt Nat α

namespace BitString

/-- The next `len ≤ 64` bits, as a number. -/
def take (v : BitString) (len : Nat) : Reading Nat := do
  let pos ← get
  v.checkRange "bit field" pos len
  set (pos + len)
  return v.getBits pos len

/-- Passes over `bits` bits. -/
def skip (v : BitString) (bits : Nat) : Reading Unit := do
  let pos ← get
  v.checkRange "skipped bits" pos bits
  set (pos + bits)

/-- Passes over a run of zeros and the one that ends it.  The length of the run is
kept in 32 bits. -/
def skipZeros (v : BitString) : Reading Nat := do
  let pos ← get
  match v.nextOne pos with
  | some one =>
      set (one + 1)
      return (one - pos) % 2 ^ 32
  | none => throw (.regionTooShort "unary code" (v.size + 1) v.size)

/-- Moves to the next multiple of `alignment` bits. -/
def align (v : BitString) (alignment : Nat) : Reading Unit := do
  v.skip (padding (← get) alignment)

end BitString
end Postings
