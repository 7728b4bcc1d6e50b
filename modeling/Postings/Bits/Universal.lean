import Postings.Bits.Reader

/-!
# Universal codes

Self-delimiting codes of numbers of any size.  Both write `n + 1`, which has a
highest set bit, of weight `2 ^ l` say.  The gamma code is `l` zeros, a one, and
the `l` bits below the highest; the delta code is the gamma code of `l` and the
same `l` bits.  A reader takes the length first and refuses one that no number
below `2 ^ 64` has.
-/

namespace Postings
namespace BitString

/-! ## Writing -/

/-- Appends the gamma code of `n < 2 ^ 64 - 1`. -/
def appendGamma (v : BitString) (n : Nat) : BitString :=
  let l := (n + 1).log2
  (v.appendBits (2 ^ l) (l + 1)).appendBits (n + 1 - 2 ^ l) l

/-- Appends the gamma code of a positive number, shifted down by one. -/
def appendGammaPositive (v : BitString) (n : Nat) : BitString :=
  v.appendGamma (n - 1)

/-- Appends the delta code of `n < 2 ^ 64 - 1`. -/
def appendDelta (v : BitString) (n : Nat) : BitString :=
  let l := (n + 1).log2
  (v.appendGamma l).appendBits (n + 1 - 2 ^ l) l

/-! ## Reading -/

/-- The bits below the highest, of which there are `l`, and with them the number. -/
def takeBelow (v : BitString) (code : String) (l : Nat) : Reading Nat := do
  if 63 < l then
    throw (.invalidFormat code "length prefix exceeds 63")
  return (← v.take l) + 2 ^ l - 1

/-- Reads a gamma code. -/
def gamma (v : BitString) : Reading Nat := do
  v.takeBelow "gamma code" (← v.skipZeros)

/-- Reads the gamma code of a positive number. -/
def gammaPositive (v : BitString) : Reading Nat := do
  return (← v.gamma) + 1

/-- Reads a delta code. -/
def delta (v : BitString) : Reading Nat := do
  v.takeBelow "delta code" (← v.gamma)

end BitString
end Postings
