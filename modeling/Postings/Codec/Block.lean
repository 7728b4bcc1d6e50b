import Postings.Codec.Kind
import Postings.Codec.Grouped
import Postings.Codec.Interpolative

/-!
# Blocks of values

The five codecs behind one interface.  A block carries neither its length nor the
number of its values: the reader knows how many values to expect, and learns from
decoding how many bytes they took.  Short runs go to the interpolative code,
which alone can refuse a run: it writes sums, and these must fit 32 bits.
-/

namespace Postings
namespace Codec

/-- Writes a run in the codec's own code, however short it is. -/
def encodeBlock (codec : Codec) (values : List Nat) : Except Error (List UInt8) :=
  match codec with
  | .vbyte => .ok (Base128.continued.encode values)
  | .groupVarint => .ok (GroupVarint.encode values)
  | .groupUnary => .ok (GroupUnary.encode values)
  | .streamVByte => .ok (StreamVByte.encode values)
  | .interpolative => Interpolative.encode values none

/-- The interpolative code is in charge of runs of this length. -/
def usesInterpolative (codec : Codec) (length : Nat) : Bool :=
  codec == .interpolative || length < codec.fallbackThreshold

/-- Writes a run. -/
def encode (codec : Codec) (values : List Nat) (hint : Option Nat) : Except Error (List UInt8) :=
  if values.isEmpty then .ok []
  else if codec.usesInterpolative values.length then Interpolative.encode values hint
  else codec.encodeBlock values

/-- The answer of a decoding and the number of bytes that it took. -/
def decodeFrom (decoding : Decoding (List Nat)) (bytes : List UInt8) :
    Except Error (List Nat × Nat) :=
  match Attempt.runFrom decoding (.start bytes) with
  | (.ok values, input) => .ok (values, input.taken)
  | (.error e, _) => .error e

/-- Reads a run of `n` values in the codec's own code. -/
def decodeBlock (codec : Codec) (bytes : List UInt8) (n : Nat) :
    Except Error (List Nat × Nat) :=
  match codec with
  | .vbyte => decodeFrom (Base128.continued.decode n) bytes
  | .groupVarint => decodeFrom (GroupVarint.decode n) bytes
  | .groupUnary => decodeFrom (GroupUnary.decode n) bytes
  | .streamVByte => decodeFrom (StreamVByte.decode n) bytes
  | .interpolative => Interpolative.decode bytes n none

/-- Reads a run of `n` values from the front of the bytes; answers with the values
and with the number of bytes that they take. -/
def decode (codec : Codec) (bytes : List UInt8) (n : Nat) (hint : Option Nat) :
    Except Error (List Nat × Nat) :=
  if n = 0 then .ok ([], 0)
  else if codec.usesInterpolative n then Interpolative.decode bytes n hint
  else codec.decodeBlock bytes n

end Codec
end Postings
