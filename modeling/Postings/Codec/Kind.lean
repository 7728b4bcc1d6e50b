import Postings.Error
import Postings.Word

/-!
# The block codecs

A block codec writes a run of numbers below `2 ^ 32` as bytes.  There are five of
them, each with a name, a number, and a length below which a run is left to the
interpolative code, which has no fixed overhead.  The cost of a posting is what
its gap is estimated to take in bits; the partition planner adds these up.
-/

namespace Postings

/-- The codes that a run of gaps can be written in. -/
inductive Codec where
  /-- Seven bits a byte, the high bit set while more bytes follow. -/
  | vbyte
  /-- Groups of four values led by a byte with their lengths. -/
  | groupVarint
  /-- Groups of eight data bytes led by a byte that marks where values end. -/
  | groupUnary
  /-- All length codes first, then all value bytes. -/
  | streamVByte
  /-- Bisection of the running sums. -/
  | interpolative
  deriving DecidableEq, Repr

namespace Codec

/-- Every codec, in the order of the numbers. -/
def all : List Codec := [.vbyte, .groupVarint, .groupUnary, .streamVByte, .interpolative]

/-- The name of a codec. -/
def name : Codec → String
  | .vbyte => "vbyte"
  | .groupVarint => "varintgb"
  | .groupUnary => "varintg8iu"
  | .streamVByte => "streamvbyte"
  | .interpolative => "interpolative"

/-- The number of a codec. -/
def id : Codec → Nat
  | .vbyte => 1
  | .groupVarint => 2
  | .groupUnary => 3
  | .streamVByte => 4
  | .interpolative => 5

/-- The number of values in a full block, the same for every codec. -/
def blockSize : Nat := 128

/-- Shorter runs are written in the interpolative code. -/
def fallbackThreshold : Codec → Nat
  | .vbyte => 0
  | .groupVarint => 128
  | .groupUnary => 8
  | .streamVByte => 128
  | .interpolative => 0

/-- The codec of a given name; the case of ASCII letters does not matter. -/
def ofName? (s : String) : Option Codec :=
  all.find? fun codec => codec.name == s.map Char.toLower

/-- The codec of a given name, or a refusal of the name. -/
def ofName (s : String) : Except Error Codec :=
  match ofName? s with
  | some codec => .ok codec
  | none => .error (.invalidArgument "block_codec" s!"unknown codec '{s}'")

/-- The estimated size in bits of the posting `value` whose predecessor leaves
`base` as the smallest value possible. -/
def postingCost (codec : Codec) (value base : Nat) : Nat :=
  let gap := value - base
  match codec with
  | .vbyte => 8 * digitCount 7 gap
  | .groupVarint => 8 * digitCount 8 gap + 2
  | .groupUnary => 9 * digitCount 8 gap
  | .streamVByte => 8 * digitCount 8 gap + 2
  | .interpolative => (if gap = 0 then 0 else gap.log2 + 1) + 1

/-- A codec is found under its own name. -/
theorem ofName?_name (codec : Codec) : ofName? codec.name = some codec := by
  cases codec <;> decide +kernel

end Codec
end Postings
