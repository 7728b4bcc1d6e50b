import Postings.Codec.Block
import Postings.Sequence.Format
import Postings.Sequence.Monotone

/-!
# Gaps in blocks

A strictly increasing sequence is stored by its gaps: the first value, and then
for each value what it exceeds its predecessor's successor by.  Every 128 gaps are
a block of the codec; the last block may be shorter.  The region starts on a byte
boundary and holds the blocks and nothing else.

A cursor keeps one decoded block and walks the blocks from front to back; to go
back it starts over.  The values of a block are kept in 32 bits.
-/

namespace Postings
namespace GapBlocks

/-! ## Gaps -/

/-- The gaps of increasing values, given the value before them. -/
def gapsOf : (prev : Option Nat) → List Nat → List Nat
  | _, [] => []
  | none, v :: values => v :: gapsOf (some v) values
  | some p, v :: values => (v - p - 1) :: gapsOf (some v) values

/-- The values that the gaps lead to, given the value before them. -/
def valuesOf : (prev : Option Nat) → List Nat → List Nat
  | _, [] => []
  | none, gap :: gaps => gap :: valuesOf (some gap) gaps
  | some p, gap :: gaps => (p + gap + 1) :: valuesOf (some (p + gap + 1)) gaps

/-! ## Writing -/

/-- Every gap of a block must fit 32 bits. -/
def checkGaps (codec : Codec) : List Nat → Except Error Unit
  | [] => .ok ()
  | gap :: gaps =>
      if 2 ^ 32 ≤ gap then .error (.codecOverflow codec.name gap) else checkGaps codec gaps

/-- The bytes of blocks of gaps. -/
def encodeBlocks (codec : Codec) : List (List Nat) → Except Error (List UInt8)
  | [] => return []
  | block :: blocks => do
      checkGaps codec block
      let bytes ← codec.encode block none
      return bytes ++ (← encodeBlocks codec blocks)

/-- The bytes of increasing values. -/
def encodePayload (codec : Codec) (values : List Nat) : Except Error (List UInt8) :=
  encodeBlocks codec (chunks Codec.blockSize (gapsOf none values))

/-- Writes a strictly increasing sequence. -/
def write (codec : Codec) (values : List Nat) (univ : Nat) (_ : Params) (_ : BuildConfig) :
    Writing Unit := do
  checkMonotone values univ
  let bytes ← encodePayload codec values
  modify fun bits => (bits.padTo 8).appendBytes bytes

/-! ## Reading at once -/

/-- Decodes `n` values that follow `prev`, in at most `blocks` blocks. -/
def decodeBlocks (codec : Codec) (bytes : List UInt8) (prev : Option Nat) (n : Nat) :
    (blocks : Nat) → Except Error (List Nat)
  | 0 => return []
  | blocks + 1 => do
      if n = 0 then
        return []
      else
        let (gaps, consumed) ← codec.decode bytes (min n Codec.blockSize) none
        let values := valuesOf prev gaps
        let rest ← decodeBlocks codec (bytes.drop consumed) (values.getLast?.or prev)
          (n - Codec.blockSize) blocks
        return values ++ rest

/-- The number of blocks of `n` values. -/
def blockCount (n : Nat) : Nat :=
  (n + (Codec.blockSize - 1)) / Codec.blockSize

/-- Decodes all `n` values of the region at `offset`. -/
def decode (codec : Codec) (bits : BitString) (offset n : Nat) : Except Error (List Nat) :=
  decodeBlocks codec (bits.bytesFrom (alignUp offset 8)) none n (blockCount n)

/-! ## Walking -/

/-- A cursor over blocks of gaps. -/
structure Cursor where
  /-- The codec of the blocks. -/
  codec : Codec
  /-- All bytes of the region, and what may follow it. -/
  bytes : List UInt8
  /-- The number of values. -/
  n : Nat
  /-- The universe. -/
  univ : Nat
  /-- The values of the decoded block. -/
  block : List Nat
  /-- The number of blocks decoded so far; the last of them is `block`. -/
  decoded : Nat
  /-- The bytes after the decoded block. -/
  rest : List UInt8
  /-- The last value before the decoded block, if there is one. -/
  beforeBlock : Option Nat
  /-- The position within the block. -/
  offset : Nat
  /-- The position in the sequence. -/
  position : Nat
  /-- The value there. -/
  value : Nat

/-- The first index from `base` on whose value does not satisfy `below`, among
`count` values of a list in which those that do come first.  The range is halved
until one value is left. -/
def partitionPoint (values : List Nat) (below : Nat → Bool) (base count : Nat) : Nat :=
  if 1 < count then
    let half := count / 2
    let base := if below (values[base + half]?.getD 0) then base + half else base
    partitionPoint values below base (count - half)
  else if count = 0 then base
  else if below (values[base]?.getD 0) then base + 1
  else base
termination_by count

namespace Cursor

variable (c : Cursor)

/-- The position of the first value of the decoded block. -/
def blockStart : Nat := (c.decoded - 1) * Codec.blockSize

/-- The last value of the decoded block. -/
def lastOfBlock : Nat := c.block.getLastD 0

/-- The number of blocks that are still to be decoded. -/
def blocksLeft : Nat := blockCount c.n - c.decoded

/-- Decodes the next block. -/
def decodeNext : Except Error Cursor := do
  let length := min (c.n - c.decoded * Codec.blockSize) Codec.blockSize
  let before := if c.decoded = 0 then none else some c.lastOfBlock
  let (gaps, consumed) ← c.codec.decode c.rest length none
  return { c with
    block := (valuesOf before gaps).map (· % 2 ^ 32)
    decoded := c.decoded + 1
    rest := c.rest.drop consumed
    beforeBlock := before
    offset := 0 }

/-- Decodes the next block of a walk; a refusal is damage. -/
def advance : Except Failure Cursor :=
  c.decodeNext.mapError .corrupt

/-- Decodes `k` more blocks. -/
def advanceBy (c : Cursor) : (k : Nat) → Except Failure Cursor
  | 0 => return c
  | k + 1 => do advanceBy (← c.advance) k

/-- Starts over with the first block. -/
def restart : Except Failure Cursor :=
  advance { c with decoded := 0, rest := c.bytes, beforeBlock := none }

/-- The cursor past the end. -/
def atEnd : Cursor :=
  { c with position := c.n, value := c.univ }

/-- The cursor at a value of the decoded block. -/
def standAt (offset : Nat) : Cursor :=
  { c with offset, position := c.blockStart + offset, value := c.block[offset]?.getD 0 }

/-- Moves to a position below the number of values. -/
def moveWithin (position : Nat) : Except Failure Cursor := do
  let block := position / Codec.blockSize
  let c ← if block + 1 < c.decoded then c.restart else pure c
  let c ← c.advanceBy (block + 1 - c.decoded)
  return c.standAt (position % Codec.blockSize)

/-- Moves to a position.  The end is reached through the last value, so that it is
known there. -/
def moveTo (position : Nat) : Except Failure Cursor := do
  if position = c.n then
    if 0 < c.n ∧ c.position ≠ c.n then
      return (← c.moveWithin (c.n - 1)).atEnd
    else
      return c.atEnd
  else
    c.moveWithin position

/-- The value before the position. -/
def prevValue : Nat :=
  if c.position = 0 then 0
  else if c.position = c.n then c.lastOfBlock
  else if 0 < c.offset then c.block[c.offset - 1]?.getD 0
  else c.beforeBlock.getD 0

/-- The first value of the decoded block that is at least `bound`, from the
current one on; the last value of the block is. -/
def locate (bound : Nat) : Cursor :=
  c.standAt (partitionPoint c.block (fun v => decide (v < bound)) c.offset
    (c.block.length - c.offset))

/-- The first value that is at least `bound` in the decoded block or in one of the
`left` blocks that follow. -/
def seek (c : Cursor) (bound : Nat) : (left : Nat) → Except Failure Cursor
  | 0 => return if bound ≤ c.lastOfBlock then c.locate bound else c.atEnd
  | left + 1 => do
      if bound ≤ c.lastOfBlock then
        return c.locate bound
      else
        seek (← c.advance) bound left

/-- Moves to the first value that is at least `bound`. -/
def nextGeq (bound : Nat) : Except Failure Cursor := do
  if c.n = 0 then
    return c.atEnd
  else
    let c ←
      if 0 < c.position ∧ bound ≤ c.prevValue then
        pure ((← c.restart).standAt 0)
      else pure c
    if c.position = c.n then
      return c.atEnd
    else
      c.seek bound c.blocksLeft

/-- Moves one position on. -/
def next : Except Failure Cursor := do
  if c.position + 1 = c.n then
    return c.atEnd
  else if c.offset + 1 = c.block.length then
    return (← c.advance).standAt 0
  else
    return c.standAt (c.offset + 1)

instance : SequenceCursor Cursor where
  size := n
  position := position
  value := value
  moveTo := moveTo
  next := next
  nextGeq := nextGeq
  prevValue c := .ok c.prevValue

end Cursor

/-! ## The format -/

/-- Opens the blocks of `n` values. -/
def openAt (codec : Codec) (bits : BitString) (offset univ n : Nat) (_ : Params) :
    Except Failure Cursor := do
  let bytes := bits.bytesFrom (alignUp offset 8)
  let c : Cursor := ⟨codec, bytes, n, univ, [], 0, bytes, none, 0, n, univ⟩
  if n = 0 then
    return c
  else
    return (← c.decodeNext).standAt 0

/-- Gaps in blocks of a codec as a format. -/
def format (codec : Codec) : Format where
  Cursor := Cursor
  write := write codec
  openAt := openAt codec

end GapBlocks
end Postings
