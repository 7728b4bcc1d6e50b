import Postings.Codec.Input

/-!
# Seven bits a byte

A number is written in base 128, low digit first, one digit a byte.  The high bit
of a byte tells whether it is the last of its value.  Two forms are in use: the
flag is on every byte but the last (`Base128.continued`), or on the last alone
(`Base128.terminated`).  A value takes at most five bytes and is below `2 ^ 32`.
-/

namespace Postings

/-- A form of the code. -/
structure Base128 where
  /-- Named when the input ends inside a value. -/
  inputName : String
  /-- Named when a value is malformed. -/
  valueName : String
  /-- The high bit marks the last byte; otherwise it marks all the others. -/
  marksLast : Bool

namespace Base128

/-- The form of the byte codec. -/
def continued : Base128 := ⟨"vbyte", "vbyte", false⟩

/-- The form that sums and counts are written in. -/
def terminated : Base128 := ⟨"interpolative", "tight vbyte", true⟩

variable (form : Base128)

/-- A digit as a byte, flagged or not. -/
def byteOf (last : Bool) (digit : Nat) : UInt8 :=
  (if last == form.marksLast then digit + 128 else digit).toUInt8

/-- Writes one value. -/
def encodeOne (x : Nat) : List UInt8 :=
  if x < 128 then [form.byteOf true x]
  else form.byteOf false (x % 128) :: encodeOne (x / 128)
termination_by x
decreasing_by omega

/-- Writes values one after another. -/
def encode (values : List Nat) : List UInt8 :=
  values.flatMap form.encodeOne

/-- The digits of a value of at most `left` bytes. -/
def digits : (left : Nat) → Decoding Nat
  | 0 => throw (.invalidFormat form.valueName "value longer than five bytes")
  | left + 1 => do
      let byte ← nextByte form.inputName
      let digit := byte.toNat % 128
      if (byte.toNat ≥ 128) == form.marksLast then
        return digit
      else
        return digit + 128 * (← digits left)

/-- Reads one value. -/
def decodeOne : Decoding Nat := do
  let value ← form.digits 5
  if 2 ^ 32 ≤ value then
    throw (.invalidFormat form.valueName "value exceeds 32 bits")
  return value

/-- Reads `n` values. -/
def decode (n : Nat) : Decoding (List Nat) :=
  decodeTimes form.decodeOne n

/-- Reads the value at a byte position; answers with it and the position after it.
Past the end of the input a byte is missing. -/
def decodeAt (bytes : List UInt8) (pos : Nat) : Except Error (Nat × Nat) := do
  if bytes.length < pos then
    throw (.regionTooShort form.inputName ((pos + 1) * 8) (bytes.length * 8))
  let (answer, after) := form.decodeOne.runFrom ⟨pos, bytes.drop pos⟩
  return (← answer, after.taken)

/-- The number of bytes of a value. -/
def encodedLength (x : Nat) : Nat :=
  digitCount 7 x

end Base128
end Postings
