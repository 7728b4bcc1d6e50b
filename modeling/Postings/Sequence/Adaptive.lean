import Postings.Bits.Scan
import Postings.Sequence.GapBlocks

/-!
# The cheapest of three encodings

A strictly increasing sequence is stored in whichever way takes least room.  When
there are as many values as the universe has numbers, the values are all of them
and nothing is stored.  Otherwise the region starts on a byte boundary with a byte
that names the encoding: a *bitmap*, one bit for each number below the universe,
or *blocks* of gaps.  The bitmap is taken when it is not larger than the blocks.
-/

namespace Postings
namespace Adaptive

/-- The byte that announces a bitmap. -/
def bitmapTag : Nat := 1

/-- The byte that announces blocks. -/
def blocksTag : Nat := 2

/-- The estimated size in bits of `n` values whose gaps cost `codecCost` bits. -/
def bitSize (codecCost univ n : Nat) : Nat :=
  if univ = n then 0
  else 8 + min (alignUp univ 8) (alignUp codecCost 8)

/-! ## Writing -/

/-- Appends the bitmap of values below a universe. -/
def appendBitmap (bits : BitString) (values : List Nat) (univ : Nat) : BitString :=
  let bits := bits.appendBits bitmapTag 8
  let start := bits.size
  (values.foldl (fun bits v => bits.setBit (start + v)) (bits.appendZeros univ)).padTo 8

/-- Writes a strictly increasing sequence. -/
def write (codec : Codec) (values : List Nat) (univ : Nat) (_ : Params) (_ : BuildConfig) :
    Writing Unit := do
  checkMonotone values univ
  modify (·.padTo 8)
  if values.length ≠ univ then
    let payload ← GapBlocks.encodePayload codec values
    if (univ + 7) / 8 ≤ payload.length then
      modify fun bits => appendBitmap bits values univ
    else
      modify fun bits => (bits.appendBits blocksTag 8).appendBytes payload

/-! ## Walking all numbers -/

/-- A cursor over all numbers below `n`. -/
structure AllOnes where
  /-- The number of values, and the universe. -/
  n : Nat
  /-- The position in the sequence, and the value there. -/
  position : Nat

instance : SequenceCursor AllOnes where
  size := AllOnes.n
  position := AllOnes.position
  value := AllOnes.position
  moveTo c position := .ok { c with position }
  next c := .ok { c with position := c.position + 1 }
  nextGeq c bound := .ok { c with position := min bound c.n }
  prevValue c := .ok (c.position - 1)

/-! ## Walking a bitmap -/

/-- A cursor over a bitmap. -/
structure Bitmap where
  /-- The bit string of the region. -/
  bits : BitString
  /-- Where the bitmap begins. -/
  start : Nat
  /-- The universe. -/
  univ : Nat
  /-- The number of values. -/
  n : Nat
  /-- The position in the sequence. -/
  position : Nat
  /-- The value there. -/
  value : Nat
  /-- The position of the value's bit; past the bitmap at the end. -/
  bitPos : Nat

namespace Bitmap

variable (c : Bitmap)

/-- The cursor past the end. -/
def atEnd : Bitmap :=
  { c with position := c.n, value := c.univ, bitPos := c.start + c.univ }

/-- The cursor at a position whose bit is known. -/
def standAt (position bitPos : Nat) : Bitmap :=
  { c with position, bitPos, value := bitPos - c.start }

/-- The bit that a walk finds must be there. -/
def found : Option Nat → Except Failure Nat
  | some bitPos => .ok bitPos
  | none => .error (.corrupt (.invalidFormat "bitmap" "fewer bits set than elements"))

/-- Moves to a position. -/
def moveTo (position : Nat) : Except Failure Bitmap := do
  if position = c.n then
    return c.atEnd
  else if c.position < position ∧ c.position < c.n then
    return c.standAt position
      (← found (c.bits.selectOne (c.bitPos + 1) (position - c.position - 1)))
  else
    return c.standAt position (← found (c.bits.selectOne c.start position))

/-- Moves to the first value that is at least `bound`.  Its position is counted
from the current bit, or from the start if that lies before it. -/
def nextGeq (bound : Nat) : Bitmap :=
  if c.univ ≤ bound then c.atEnd
  else
    match (c.bits.nextOne (c.start + bound)).filter (· < c.start + c.univ) with
    | none => c.atEnd
    | some hit =>
        let position :=
          if c.position < c.n ∧ c.bitPos ≤ hit then c.position + c.bits.countOnes c.bitPos hit
          else c.bits.countOnes c.start hit
        c.standAt position hit

/-- Moves one position on. -/
def next : Except Failure Bitmap := do
  if c.position + 1 = c.n then
    return c.atEnd
  else
    return c.standAt (c.position + 1) (← found (c.bits.nextOne (c.bitPos + 1)))

/-- The value before the position. -/
def prevValue : Except Failure Nat := do
  if c.position = 0 then
    return 0
  else
    return (← found (c.bits.prevOne c.bitPos)) - c.start

instance : SequenceCursor Bitmap where
  size := n
  position := position
  value := value
  moveTo := moveTo
  next := next
  nextGeq c bound := .ok (c.nextGeq bound)
  prevValue := prevValue

/-- Opens a bitmap. -/
def openAt (bits : BitString) (start univ n : Nat) : Except Failure Bitmap := do
  bits.checkRange "bitmap" start univ
  match (bits.nextOne start).filter (· < start + univ) with
  | some first => return ⟨bits, start, univ, n, 0, first - start, first⟩
  | none => throw (.refused (.invalidFormat "bitmap" "no bit set"))

end Bitmap

/-! ## The cursor of any encoding -/

/-- A cursor over a sequence in one of the three encodings. -/
inductive Cursor where
  | allOnes (c : AllOnes)
  | bitmap (c : Bitmap)
  | blocks (c : GapBlocks.Cursor)

namespace Cursor

instance : SequenceCursor Cursor where
  size
    | allOnes c => SequenceCursor.size c
    | bitmap c => SequenceCursor.size c
    | blocks c => SequenceCursor.size c
  position
    | allOnes c => SequenceCursor.position c
    | bitmap c => SequenceCursor.position c
    | blocks c => SequenceCursor.position c
  value
    | allOnes c => SequenceCursor.value c
    | bitmap c => SequenceCursor.value c
    | blocks c => SequenceCursor.value c
  moveTo
    | allOnes c, position => allOnes <$> SequenceCursor.moveTo c position
    | bitmap c, position => bitmap <$> SequenceCursor.moveTo c position
    | blocks c, position => blocks <$> SequenceCursor.moveTo c position
  next
    | allOnes c => allOnes <$> SequenceCursor.next c
    | bitmap c => bitmap <$> SequenceCursor.next c
    | blocks c => blocks <$> SequenceCursor.next c
  nextGeq
    | allOnes c, bound => allOnes <$> SequenceCursor.nextGeq c bound
    | bitmap c, bound => bitmap <$> SequenceCursor.nextGeq c bound
    | blocks c, bound => blocks <$> SequenceCursor.nextGeq c bound
  prevValue
    | allOnes c => SequenceCursor.prevValue c
    | bitmap c => SequenceCursor.prevValue c
    | blocks c => SequenceCursor.prevValue c

/-- Which encoding was found. -/
def shape : Cursor → Shape
  | allOnes _ => .allOnes
  | bitmap _ => .bitmap
  | blocks _ => .blocks

end Cursor

/-- Opens a region of `n` values. -/
def openAt (codec : Codec) (bits : BitString) (offset univ n : Nat) (params : Params) :
    Except Failure Cursor := do
  if n = univ then
    return .allOnes ⟨n, 0⟩
  else
    let start := alignUp offset 8
    bits.checkRange "indexed sequence tag" start 8
    let tag := bits.getBits start 8
    if tag = bitmapTag then
      return .bitmap (← Bitmap.openAt bits (start + 8) univ n)
    else if tag = blocksTag then
      return .blocks (← GapBlocks.openAt codec bits (start + 8) univ n params)
    else
      throw (.refused (.invalidFormat "indexed sequence tag" s!"unknown encoding {tag}"))

/-- The cheapest of three encodings as a format. -/
def format (codec : Codec) : Format where
  Cursor := Cursor
  write := write codec
  openAt := openAt codec
  shape := Cursor.shape

end Adaptive
end Postings
