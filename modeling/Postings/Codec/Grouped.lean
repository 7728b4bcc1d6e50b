import Postings.Codec.Input

/-!
# Values of one to four bytes

Three codes write a value in the fewest whole bytes and keep the lengths apart
from the bytes.

* *Group varint*: four values at a time, after a byte with their four lengths,
  two bits each.
* *Stream VByte*: the same length bytes, but those of the whole run come first.
* *Group unary*: a byte that marks where values end, then eight data bytes.  A
  value that does not fit what is left of a group starts the next one.
-/

namespace Postings

/-! ## Lengths in two bits -/

/-- The lengths of up to four values, less one, two bits each. -/
def lengthByte : List Nat → Nat
  | [] => 0
  | x :: xs => (digitCount 8 x - 1) + 4 * lengthByte xs

/-- Reads `n` values whose lengths are the lowest digits of `lengths` in base 4. -/
def valuesOfLengths (codec : String) (lengths : Nat) : (n : Nat) → Decoding (List Nat)
  | 0 => return []
  | n + 1 => do
      let bytes ← nextBytes codec (lengths % 4 + 1)
      return ofLeBytes bytes :: (← valuesOfLengths codec (lengths / 4) n)

namespace GroupVarint

/-- Writes a run. -/
def encode (values : List Nat) : List UInt8 :=
  (chunks 4 values).flatMap fun group =>
    (lengthByte group).toUInt8 :: group.flatMap minimalBytes

/-- Reads `n` values. -/
def decode (n : Nat) : Decoding (List Nat) := do
  if n = 0 then
    return []
  else
    let lengths ← nextByte "varintgb"
    let group ← valuesOfLengths "varintgb" lengths.toNat (min n 4)
    return group ++ (← decode (n - 4))
termination_by n

end GroupVarint

namespace StreamVByte

/-- Writes a run. -/
def encode (values : List Nat) : List UInt8 :=
  (chunks 4 values).map (fun group => (lengthByte group).toUInt8) ++ values.flatMap minimalBytes

/-- Reads `n` values whose length bytes are given. -/
def decodeValues : (lengths : List UInt8) → (n : Nat) → Decoding (List Nat)
  | [], _ => return []
  | byte :: lengths, n => do
      let group ← valuesOfLengths "streamvbyte" byte.toNat (min n 4)
      return group ++ (← decodeValues lengths (n - 4))

/-- Reads `n` values. -/
def decode (n : Nat) : Decoding (List Nat) := do
  decodeValues (← nextBytes "streamvbyte" ((n + 3) / 4)) n

end StreamVByte

/-! ## Ends of values in one bit -/

namespace GroupUnary

/-- Cuts a run into groups whose values take at most eight bytes together; `used`
bytes are taken by the values of the open group. -/
def groups (used : Nat) (group : List Nat) : List Nat → List (List Nat)
  | [] => if group.isEmpty then [] else [group]
  | x :: xs =>
      if 8 < used + digitCount 8 x then group :: groups (digitCount 8 x) [x] xs
      else groups (used + digitCount 8 x) (group ++ [x]) xs

/-- The byte that marks the last byte of each value; the first value begins at
byte `used`. -/
def endMarks (used : Nat) : List Nat → Nat
  | [] => 0
  | x :: xs => 2 ^ (used + digitCount 8 x - 1) + endMarks (used + digitCount 8 x) xs

/-- Writes one group, filled up with zeros. -/
def encodeGroup (group : List Nat) : List UInt8 :=
  let data := group.flatMap minimalBytes
  (endMarks 0 group).toUInt8 :: (data ++ List.replicate (8 - data.length) 0)

/-- Writes a run. -/
def encode (values : List Nat) : List UInt8 :=
  (groups 0 [] values).flatMap encodeGroup

/-- The first `n` values of a group: `marks` tells which of the data bytes end a
value, and `value` holds the bytes of the value that is open. -/
def valuesOfMarks (n marks : Nat) (value : List UInt8) : List UInt8 → Except Error (List Nat)
  | [] => return []
  | byte :: data =>
      if n = 0 then
        return []
      else if marks % 2 = 0 then
        valuesOfMarks n (marks / 2) (value ++ [byte]) data
      else if 4 < value.length + 1 then
        throw (.invalidFormat "varintg8iu" "value longer than four bytes")
      else do
        return ofLeBytes (value ++ [byte]) :: (← valuesOfMarks (n - 1) (marks / 2) [] data)

/-- Reads `n` values from at most `left` groups. -/
def decodeGroups : (left n : Nat) → Decoding (List Nat)
  | 0, _ => return []
  | left + 1, n => do
      if n = 0 then
        return []
      else
        let bytes ← nextBytes "varintg8iu" 9
        let marks := (bytes.headD 0).toNat
        if marks = 0 then
          throw (.invalidFormat "varintg8iu" "empty group descriptor")
        let group ← valuesOfMarks n marks [] bytes.tail
        return group ++ (← decodeGroups left (n - group.length))

/-- Reads `n` values; a group holds at least one, so `n` groups are enough. -/
def decode (n : Nat) : Decoding (List Nat) :=
  decodeGroups n n

end GroupUnary
end Postings
