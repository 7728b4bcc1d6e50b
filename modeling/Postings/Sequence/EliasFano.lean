import Postings.Bits.Scan
import Postings.Sequence.Format
import Postings.Sequence.Monotone

/-!
# Elias-Fano

A non-decreasing sequence is split by its width: the `l` lowest bits of each value
are stored as they are, and of the rest the *high part* is stored in unary, value
`i` with high part `h` setting bit `h + i`.  Between the set bits of the high part
there is one unset bit for each *bucket*, that is for each possible high part.

Two tables of pointers into the high bits shorten the walk.  One has the position
of every `2 ^ elementLog`-th value.  The other has the position where every
`2 ^ bucketLog`-th bucket begins, behind the unset bits of the buckets before it: the
bucket itself plus the number of values in those.  Where the bucket is empty, unset
bits follow, and the next value stands behind them.  The region is `[bucket
pointers][element pointers][high bits][low bits]`; all sizes follow from the universe
and the number of values.
-/

namespace Postings
namespace EliasFano

/-! ## Layout -/

/-- Where the parts of a region lie. -/
structure Layout where
  /-- Where the region begins. -/
  start : Nat
  /-- The universe. -/
  univ : Nat
  /-- The number of values. -/
  n : Nat
  /-- The sampling of the pointers. -/
  params : Params

namespace Layout

variable (l : Layout)

/-- The number of low bits of a value. -/
def lowWidth : Nat :=
  if 0 < l.n ∧ l.n < l.univ then (l.univ / l.n).log2 else 0

/-- The highest bucket. -/
def buckets : Nat := l.univ >>> l.lowWidth

/-- The number of high bits: one for each value and one for each bucket. -/
def highLength : Nat := l.n + l.buckets + 1

/-- The width of a pointer. -/
def pointerWidth : Nat := ceilLog2 l.highLength

/-- The number of pointers to buckets. -/
def bucketPointers : Nat := l.buckets >>> l.params.bucketLog

/-- The number of pointers to values. -/
def elementPointers : Nat := (l.n - 1) >>> l.params.elementLog

/-- Where the pointers to values begin. -/
def elementPointersOffset : Nat := l.start + l.bucketPointers * l.pointerWidth

/-- Where the high bits begin. -/
def highOffset : Nat := l.elementPointersOffset + l.elementPointers * l.pointerWidth

/-- Where the low bits begin. -/
def lowOffset : Nat := l.highOffset + l.highLength

/-- Where the region ends. -/
def stop : Nat := l.lowOffset + l.n * l.lowWidth

/-- Where the pointer to the `k`-th sampled bucket is, counted from one. -/
def bucketPointerAt (k : Nat) : Nat := l.start + (k - 1) * l.pointerWidth

/-- Where the pointer to the `k`-th sampled value is, counted from one. -/
def elementPointerAt (k : Nat) : Nat := l.elementPointersOffset + (k - 1) * l.pointerWidth

/-- The high part of a value. -/
def high (value : Nat) : Nat := value >>> l.lowWidth

end Layout

/-- The size in bits of `n` values below a universe. -/
def bitSize (univ n : Nat) (params : Params) : Nat :=
  (Layout.mk 0 univ n params).stop

/-- The position after `n` values below a universe written at `offset`. -/
def regionEnd (offset univ n : Nat) (params : Params) : Nat :=
  (Layout.mk offset univ n params).stop

/-! ## Writing -/

/-- Writes the low bits of the values from the `i`-th on, and sets their high bits. -/
def writeValues (l : Layout) (bits : BitString) (i : Nat) : List Nat → BitString
  | [] => bits
  | v :: values =>
      let bits := bits.setBits (l.lowOffset + i * l.lowWidth) v l.lowWidth
      writeValues l (bits.setBit (l.highOffset + l.high v + i)) (i + 1) values

/-- Writes the pointers to the values from the `i`-th on. -/
def writeElementPointers (l : Layout) (bits : BitString) (i : Nat) : List Nat → BitString
  | [] => bits
  | v :: values =>
      let bits :=
        if 0 < i ∧ i % 2 ^ l.params.elementLog = 0 then
          bits.setBits (l.elementPointerAt (i >>> l.params.elementLog)) (l.high v + i)
            l.pointerWidth
        else bits
      writeElementPointers l bits (i + 1) values

/-- Writes `left` pointers to buckets, from the `k`-th on; the values from the
`i`-th on are those that no earlier sampled bucket is past. -/
def writeBucketPointers (l : Layout) (bits : BitString) (k i : Nat) (values : List Nat) :
    (left : Nat) → BitString
  | 0 => bits
  | left + 1 =>
      let bucket := k <<< l.params.bucketLog
      let before := (values.takeWhile fun v => l.high v < bucket).length
      let bits := bits.setBits (l.bucketPointerAt k) (bucket + (i + before)) l.pointerWidth
      writeBucketPointers l bits (k + 1) (i + before) (values.drop before) left

/-- The list must be non-empty, non-decreasing and below its universe. -/
def checkValues (values : List Nat) (univ : Nat) : Except Error Unit := do
  checkArgument "values" "!values.is_empty()" (!values.isEmpty)
  if let some _ := firstAdjacent (fun a b => decide (b < a)) 0 values then
    throw (.invalidArgument "values" "sequence is not sorted")
  checkArgument "universe" "values[values.len() - 1] < universe" (values.getLastD 0 < univ)

/-- Writes a non-decreasing sequence. -/
def write (values : List Nat) (univ : Nat) (params : Params) (_ : BuildConfig) :
    Writing Unit := do
  checkValues values univ
  modify fun bits =>
    let l : Layout := ⟨bits.size, univ, values.length, params⟩
    let bits := bits.appendZeros (l.stop - l.start)
    let bits := writeValues l bits 0 values
    let bits := writeElementPointers l bits 0 values
    writeBucketPointers l bits 1 0 values l.bucketPointers

/-! ## Walking -/

/-- Steps up to this length are taken by scanning. -/
def scanLimit : Nat := 16

/-- A cursor over an Elias-Fano region. -/
structure Cursor where
  /-- The bit string of the region. -/
  bits : BitString
  /-- The layout of the region. -/
  layout : Layout
  /-- The position in the sequence. -/
  position : Nat
  /-- The value there. -/
  value : Nat
  /-- The position of the value's high bit; past the high bits at the end. -/
  highPos : Nat

/-- The failure of a walk that misses something. -/
def missing (what : String) : Failure :=
  .corrupt (.invalidFormat "elias-fano" s!"missing {what}")

namespace Cursor

variable (c : Cursor)

/-- The value at a position whose high bit is known, in 64 bits: what the high bits
of a damaged region show beyond them is dropped. -/
def read (position highPos : Nat) : Nat :=
  let l := c.layout
  ((highPos - l.highOffset - position) <<< l.lowWidth) % 2 ^ 64 |||
    c.bits.getBits (l.lowOffset + position * l.lowWidth) l.lowWidth

/-- The cursor at a position whose high bit is known. -/
def standAt (position highPos : Nat) : Cursor :=
  { c with position, highPos, value := c.read position highPos }

/-- The cursor past the end. -/
def atEnd : Cursor :=
  { c with
    position := c.layout.n
    value := c.layout.univ
    highPos := c.layout.highOffset + c.layout.highLength }

/-- The `k`-th high bit at or after a position. -/
def highBit (pos k : Nat) : Except Failure Nat :=
  match c.bits.selectOne pos k with
  | some highPos => .ok highPos
  | none => .error (missing "high bit")

/-- The high bit of a position, from the nearest pointer before it. -/
def highBitOf (position : Nat) : Except Failure Nat :=
  let l := c.layout
  let k := position >>> l.params.elementLog
  if k = 0 then c.highBit l.highOffset position
  else
    let pointer := c.bits.getBits (l.elementPointerAt k) l.pointerWidth
    c.highBit (l.highOffset + pointer) (position - k <<< l.params.elementLog)

/-- Moves to a position. -/
def moveTo (position : Nat) : Except Failure Cursor := do
  if position = c.position then
    return c
  else if c.layout.n ≤ position then
    return c.atEnd
  else if c.position < position ∧ position - c.position ≤ scanLimit then
    return c.standAt position (← c.highBit (c.highPos + 1) (position - c.position - 1))
  else
    return c.standAt position (← c.highBitOf position)

/-- Moves one position on. -/
def next : Except Failure Cursor := do
  if c.layout.n ≤ c.position + 1 then
    return c.atEnd
  else
    return c.standAt (c.position + 1) (← c.highBit (c.highPos + 1) 0)

/-- The first value from `position` on that is at least `bound`; the high bit of
`position` is the first at or after `pos`. -/
def scanGeq (bound position pos : Nat) : Except Failure Cursor := do
  if c.layout.n ≤ position then
    return c.atEnd
  else
    let highPos ← c.highBit pos 0
    if bound ≤ c.read position highPos then
      return c.standAt position highPos
    else
      scanGeq bound (position + 1) (highPos + 1)
termination_by c.layout.n - position

/-- The first value that is at least `bound`, from the pointer to the nearest
bucket before it. -/
def seekGeq (bound : Nat) : Except Failure Cursor := do
  let l := c.layout
  let bucket := l.high bound
  let k := min (bucket >>> l.params.bucketLog) l.bucketPointers
  let start :=
    if k = 0 then l.highOffset
    else l.highOffset + c.bits.getBits (l.bucketPointerAt k) l.pointerWidth
  let skipped := bucket - k <<< l.params.bucketLog
  let pos ←
    if skipped = 0 then pure start
    else
      match c.bits.selectZero start (skipped - 1) with
      | some boundary => pure (boundary + 1)
      | none => throw (missing "bucket boundary")
  c.scanGeq bound (pos - l.highOffset - bucket) pos

/-- Moves to the first value that is at least `bound`. -/
def nextGeq (bound : Nat) : Except Failure Cursor :=
  let l := c.layout
  if l.univ ≤ bound then .ok c.atEnd
  else if c.position < l.n ∧ c.value < bound ∧ l.high bound - l.high c.value ≤ scanLimit then
    c.scanGeq bound (c.position + 1) (c.highPos + 1)
  else c.seekGeq bound

/-- The value before the position. -/
def prevValue : Except Failure Nat :=
  if c.position = 0 then .ok 0
  else
    match c.bits.prevOne c.highPos with
    | some highPos => .ok (c.read (c.position - 1) highPos)
    | none => .error (missing "high bit")

instance : SequenceCursor Cursor where
  size c := c.layout.n
  position := position
  value := value
  moveTo := moveTo
  next := next
  nextGeq := nextGeq
  prevValue := prevValue

end Cursor

/-! ## The format -/

/-- Opens a region of `n` values. -/
def openAt (bits : BitString) (offset univ n : Nat) (params : Params) :
    Except Failure Cursor := do
  let layout : Layout := ⟨offset, univ, n, params⟩
  bits.checkRange "elias-fano" offset (layout.stop - offset)
  let c : Cursor := Cursor.atEnd ⟨bits, layout, 0, 0, 0⟩
  if n = 0 then
    return c
  else
    match (bits.nextOne layout.highOffset).filter (· < layout.lowOffset) with
    | some first => return c.standAt 0 first
    | none => throw (.refused (.invalidFormat "elias-fano" "empty high bits"))

/-- Elias-Fano as a format of tables. -/
def format : TableFormat where
  Cursor := Cursor
  write := write
  openAt := openAt
  regionEnd := regionEnd

end EliasFano
end Postings
