import Postings.Codec.Block

/-!
# Blocks written into a buffer

A block is written behind what a buffer already holds, byte by byte, and some of its
bytes are written before they are known.

* *Group varint* leaves room for the length byte of a group, pushes the values, and
  then goes back and puts it there.
* *Stream VByte* makes room for the length bytes of the whole run, as zeros, and adds
  the length of a value to its byte when the value is pushed.
* *Group unary* keeps the open group apart, and pushes it when the next value does not
  fit it any more.
* The interpolative code keeps the bits that do not fill a byte in a word above which
  the next bits are put.
-/

namespace Postings

/-- A computation that writes into a buffer. -/
abbrev Buffering (α : Type) := Attempt (List UInt8) α

/-- Appends bytes to the buffer. -/
def pushBytes (bytes : List UInt8) : Buffering Unit :=
  modify (· ++ bytes)

/-- Appends a byte to the buffer. -/
def pushByte (byte : UInt8) : Buffering Unit :=
  pushBytes [byte]

/-! ## Seven bits a byte -/

namespace Base128

variable (form : Base128)

/-- Pushes one value, a digit at a time. -/
def encodeOneOnto (x : Nat) : Buffering Unit := do
  if x < 128 then
    pushByte (form.byteOf true x)
  else
    pushByte (form.byteOf false (x % 128))
    encodeOneOnto (x / 128)
termination_by x
decreasing_by omega

/-- Pushes values one after another. -/
def encodeOnto (values : List Nat) : Buffering Unit :=
  values.forM form.encodeOneOnto

end Base128

/-! ## Lengths in two bits -/

/-- The length of a value, less one, in the `j`-th two bits of a byte. -/
def lengthBits (j x : Nat) : UInt8 :=
  (digitCount 8 x - 1).toUInt8 <<< (2 * j).toUInt8

namespace GroupVarint

/-- Pushes values of a group, from the `j`-th on; answers with the length byte, given
what it holds of the values before. -/
def pushValues : (j : Nat) → (lengths : UInt8) → List Nat → Buffering UInt8
  | _, lengths, [] => return lengths
  | j, lengths, x :: xs => do
      pushBytes (minimalBytes x)
      pushValues (j + 1) (lengths ||| lengthBits j x) xs

/-- Pushes a group.  The length byte comes first, and is known last. -/
def pushGroup (group : List Nat) : Buffering Unit := do
  let start := (← get).length
  pushByte 0
  let lengths ← pushValues 0 0 group
  modify (·.set start lengths)

/-- Writes a run. -/
def encodeOnto (values : List Nat) : Buffering Unit :=
  (chunks 4 values).forM pushGroup

end GroupVarint

namespace StreamVByte

/-- Pushes values of a run, from the `i`-th on; the length bytes of the run begin at
`start`. -/
def pushValues (start : Nat) : (i : Nat) → List Nat → Buffering Unit
  | _, [] => return
  | i, x :: xs => do
      modify (·.modify (start + i / 4) (· ||| lengthBits (i % 4) x))
      pushBytes (minimalBytes x)
      pushValues start (i + 1) xs

/-- Writes a run. -/
def encodeOnto (values : List Nat) : Buffering Unit := do
  let start := (← get).length
  pushBytes (List.replicate ((values.length + 3) / 4) 0)
  pushValues start 0 values

end StreamVByte

/-! ## Ends of values in one bit -/

namespace GroupUnary

/-- A group that is not pushed yet. -/
structure OpenGroup where
  /-- Marks the last byte of each value. -/
  marks : UInt8
  /-- The eight data bytes; those that are not used are zero. -/
  data : List UInt8
  /-- The number of data bytes that are used. -/
  used : Nat

namespace OpenGroup

/-- The group without values. -/
def empty : OpenGroup := ⟨0, List.replicate 8 0, 0⟩

/-- Puts a value behind the others. -/
def add (group : OpenGroup) (x : Nat) : OpenGroup :=
  let bytes := minimalBytes x
  let used := group.used + bytes.length
  { marks := group.marks ||| (1 : UInt8) <<< (used - 1).toUInt8
    data := group.data.take group.used ++ bytes ++ group.data.drop used
    used }

/-- Pushes the group and opens the next. -/
def flush (group : OpenGroup) : Buffering OpenGroup := do
  pushByte group.marks
  pushBytes group.data
  return empty

/-- Pushes the group if there is a value in it. -/
def close (group : OpenGroup) : Buffering Unit := do
  if 0 < group.used then
    let _ ← group.flush

end OpenGroup

/-- Puts values into the open group, which is pushed whenever a value does not fit it. -/
def pushValues : (group : OpenGroup) → List Nat → Buffering OpenGroup
  | group, [] => return group
  | group, x :: xs => do
      let group ← if 8 < group.used + digitCount 8 x then group.flush else pure group
      pushValues (group.add x) xs

/-- Writes a run. -/
def encodeOnto (values : List Nat) : Buffering Unit := do
  let group ← pushValues .empty values
  group.close

end GroupUnary

/-! ## Bits -/

/-- Writes bits into a buffer. -/
structure BitWriter where
  /-- The buffer. -/
  out : List UInt8
  /-- The bits that do not fill a byte yet. -/
  acc : UInt64
  /-- How many there are. -/
  filled : Nat

namespace BitWriter

/-- Pushes whole bytes, as long as there are any. -/
def drain (w : BitWriter) : BitWriter :=
  if 8 ≤ w.filled then drain ⟨w.out ++ [w.acc.toUInt8], w.acc >>> 8, w.filled - 8⟩ else w
termination_by w.filled

/-- Writes a field of `len` bits. -/
def write (w : BitWriter) (bits : UInt64) (len : Nat) : BitWriter :=
  drain ⟨w.out, w.acc ||| bits <<< w.filled.toUInt64, w.filled + len⟩

/-- Writes symbol `x` of `range` symbols: one field, or one field and a bit. -/
def writeTruncated (w : BitWriter) (x range : Nat) : BitWriter :=
  if range ≤ 1 then w
  else
    let width := ceilLog2 range
    let short := 2 ^ width - range
    if x < short then w.write x.toUInt64 (width - 1)
    else
      (w.write (short + (x - short) / 2).toUInt64 (width - 1)).write ((x - short) % 2).toUInt64 1

/-- The buffer, with a byte for the bits that do not fill one. -/
def finish (w : BitWriter) : List UInt8 :=
  if 0 < w.filled then w.out ++ [w.acc.toUInt8] else w.out

end BitWriter

namespace Interpolative

/-- Writes sums between two bounds, the middle one first. -/
def writeSums (w : BitWriter) (sums : List Nat) (low high : Nat) : BitWriter :=
  if sums = [] ∨ low = high then w
  else
    let half := sums.length / 2
    let middle := sums[half]?.getD high
    let left := writeSums (w.writeTruncated (middle - low) (high - low + 1))
      (sums.take half) low middle
    writeSums left (sums.drop (half + 1)) middle high
termination_by sums.length
decreasing_by
  all_goals
    rename_i h
    have : sums.length ≠ 0 := fun h0 => h (.inl (List.length_eq_zero_iff.mp h0))
    simp only [List.length_take, List.length_drop]
    omega

/-- Writes a run.  It is refused before a byte of it is written. -/
def encodeOnto (values : List Nat) (hint : Option Nat) : Buffering Unit := do
  if values.isEmpty then
    return
  let sums ← runningSums 0 values
  let sum := sums.getLastD 0
  match hint with
  | some hint => if hint ≠ sum then throw (hintMismatch hint sum)
  | none => Base128.terminated.encodeOneOnto sum
  modify fun buffer => (writeSums ⟨buffer, 0, 0⟩ sums.dropLast 0 sum).finish

end Interpolative

/-! ## Blocks -/

namespace Codec

/-- Writes a run in the codec's own code, however short it is, behind what the buffer
holds. -/
def encodeBlockOnto (codec : Codec) (values : List Nat) : Buffering Unit :=
  match codec with
  | .vbyte => Base128.continued.encodeOnto values
  | .groupVarint => GroupVarint.encodeOnto values
  | .groupUnary => GroupUnary.encodeOnto values
  | .streamVByte => StreamVByte.encodeOnto values
  | .interpolative => Interpolative.encodeOnto values none

/-- Writes a run behind what the buffer holds. -/
def encodeOnto (codec : Codec) (values : List Nat) (hint : Option Nat) : Buffering Unit :=
  if values.isEmpty then pure ()
  else if codec.usesInterpolative values.length then Interpolative.encodeOnto values hint
  else codec.encodeBlockOnto values

end Codec
end Postings
