import Postings.Bits.Universal
import Postings.Sequence.EliasFano
import Postings.Sequence.Monotone

/-!
# Partitions

A sequence is cut into partitions, and each is written in a format of its own,
relative to its *base*, the number after the last value of the partition before
it; the base of the first partition is the first value.  The region begins with
the number of partitions.

* One partition: the base, the distance from it to the last value unless that is
  known, padding, and the payload.
* More partitions: the width of an entry of the end table, the sizes of the
  partitions if they vary, the table of upper bounds, the end table, padding, and
  the payloads.

Sizes are stored as the positions where partitions end, in Elias-Fano.  The table
of upper bounds holds the first value and then the last value of each partition.
The end table has, for each partition but the last, the byte where its payload
ends, counted from the first payload.
-/

namespace Postings
namespace Partitioned

/-- How the sizes of partitions are known. -/
inductive Sizing where
  /-- They are stored. -/
  | stored
  /-- Every partition but the last has `2 ^ partitionLog` values. -/
  | uniform
  deriving DecidableEq, Repr

/-! ## Writing -/

/-- What the tables hold about a partition that has been written. -/
structure Part where
  /-- The last value. -/
  upper : Nat
  /-- The byte where the payload ends, counted from the first payload. -/
  stop : Nat

/-- Writes, one behind another, the payloads of the partitions of `values` that end
at `ends`.  The first of the values is at position `start`, and `base` is the base
of its partition. -/
def writePayloads (nested : Format) (params : Params) (config : BuildConfig) (bits : BitString)
    (start base : Nat) (values : List Nat) :
    (ends : List Nat) → Except Error (BitString × List Part)
  | [] => return (bits, [])
  | stop :: ends => do
      let part := values.take (stop - start)
      let upper := part.getLastD base
      match Attempt.runFrom
          (nested.write (part.map (· - base)) (upper - base + 1) params config) bits with
      | (.error e, _) => throw e
      | (.ok (), bits) =>
          let bits := bits.padTo 8
          let (all, parts) ← writePayloads nested params config bits stop (upper + 1)
            (values.drop (stop - start)) ends
          return (all, ⟨upper, bits.size / 8⟩ :: parts)

/-- The ends must go up strictly from a positive number to the number of values. -/
def checkEnds (ends : List Nat) (n : Nat) : Except Error Unit := do
  if ends.getLast? ≠ some n ∨ ends.head? = some 0 then
    throw (.invalidArgument "endpoints" s!"partition ends must finish at {n}")
  if let some _ := firstAdjacent (fun a b => decide (b ≤ a)) 0 ends then
    throw (.invalidArgument "endpoints" "partitions must be non-empty")

/-- Writes values as one partition. -/
def writeSingle (nested : Format) (values : List Nat) (univ : Nat) (params : Params)
    (config : BuildConfig) : Writing Unit := do
  let base := values.headD 0
  let span := values.getLastD 0 - base
  modify fun bits => bits.appendBits base (ceilLog2 univ)
  if 1 < values.length then
    modify fun bits => bits.appendDelta (if base + span + 1 = univ then 0 else span)
  modify (·.padTo 8)
  nested.write (values.map (· - base)) (span + 1) params config

/-- Writes values as several partitions that end at `ends`. -/
def writeSeveral (nested : Format) (table : TableFormat) (sizing : Sizing) (values : List Nat)
    (univ : Nat) (ends : List Nat) (params : Params) (config : BuildConfig) : Writing Unit := do
  let first := values.headD 0
  let (payloads, parts) ← writePayloads nested params config .empty 0 first values ends
  let width := ceilLog2 (payloads.size / 8 + 1)
  modify fun bits => bits.appendGamma width
  if sizing = .stored then
    EliasFano.write ends.dropLast values.length params config
  table.write (first :: parts.map Part.upper) univ params config
  modify fun bits =>
    (parts.dropLast.foldl (fun bits part => bits.appendBits part.stop width) bits).padTo 8
      ++ payloads

/-- Writes values cut into partitions that end at `ends`. -/
def writePartitions (nested : Format) (table : TableFormat) (sizing : Sizing) (values : List Nat)
    (univ : Nat) (ends : List Nat) (params : Params) (config : BuildConfig) : Writing Unit := do
  checkEnds ends values.length
  modify fun bits => bits.appendGammaPositive ends.length
  if ends.length = 1 then
    writeSingle nested values univ params config
  else
    writeSeveral nested table sizing values univ ends params config

/-! ## Layout -/

/-- How an opened region knows the sizes of its partitions. -/
inductive Sizes where
  /-- There is one partition. -/
  | single
  /-- From a cursor over the ends of all partitions but the last. -/
  | stored (ends : EliasFano.Cursor)
  /-- Every partition but the last has `2 ^ log` values. -/
  | uniform (log : Nat)

/-- Where a partition lies, in positions and in values. -/
structure Bounds where
  /-- The position of its first value. -/
  start : Nat
  /-- The position after its last value. -/
  stop : Nat
  /-- The number that its values are relative to. -/
  base : Nat
  /-- Its last value. -/
  upper : Nat

/-- An opened region: its header, and the cursors over its tables. -/
structure Layout (table : TableFormat) where
  /-- The bit string of the region. -/
  bits : BitString
  /-- The parameters that it was written with. -/
  params : Params
  /-- The number of values. -/
  n : Nat
  /-- The universe. -/
  univ : Nat
  /-- The number of partitions. -/
  partitions : Nat
  /-- The sizes of the partitions. -/
  sizes : Sizes
  /-- The table of upper bounds, if there are several partitions. -/
  uppers : Option table.Cursor
  /-- The bounds of the only partition, if there is one. -/
  single : Bounds
  /-- The width of an entry of the end table. -/
  stopWidth : Nat
  /-- Where the end table begins. -/
  stopsOffset : Nat
  /-- Where the first payload begins. -/
  payloadOffset : Nat

/-- Reads on from the position that a reader has reached. -/
def readingFrom {α : Type} (x : Reading α) (pos : Nat) : Except Failure (α × Nat) :=
  match Attempt.runFrom x pos with
  | (.ok a, pos) => .ok (a, pos)
  | (.error e, _) => .error (.refused e)

/-- A refusal of stored data. -/
def malformed {α : Type} (element message : String) : Except Failure α :=
  .error (.refused (.invalidFormat element message))

namespace Layout

variable {table : TableFormat}

/-- Reads the header of a single partition; `pos` is the position after the number
of partitions. -/
def readSingle (table : TableFormat) (bits : BitString) (pos univ n : Nat) (params : Params) :
    Except Failure (Layout table) := do
  let (base, pos) ← readingFrom (bits.take (ceilLog2 univ)) pos
  let (span, pos) ←
    if n = 1 then pure (1, pos)
    else do
      let (last, pos) ← readingFrom bits.delta pos
      pure (if last = 0 then univ - base else last + 1, pos)
  if span < n ∨ univ < base + span then
    malformed "partition header" s!"{n} values from {base} span {span} in {univ}"
  else
    return {
      bits, params, n, univ
      partitions := 1
      sizes := .single
      uppers := none
      single := ⟨0, n, base, base + span - 1⟩
      stopWidth := 0
      stopsOffset := 0
      payloadOffset := alignUp pos 8 }

/-- Opens the sizes of several partitions; answers also with the position after
them. -/
def readSizes (bits : BitString) (pos n partitions : Nat) (params : Params) :
    Sizing → Except Failure (Sizes × Nat)
  | .stored => do
      let ends ← EliasFano.openAt bits pos n (partitions - 1) params
      return (.stored ends, EliasFano.regionEnd pos n (partitions - 1) params)
  | .uniform => do
      let expected := (n + (2 ^ params.partitionLog - 1)) / 2 ^ params.partitionLog
      if partitions ≠ expected then
        malformed "partition count" s!"{partitions} uniform partitions, expected {expected}"
      else
        return (.uniform params.partitionLog, pos)

/-- Reads the tables of several partitions; `pos` is the position after their
number. -/
def readSeveral (table : TableFormat) (bits : BitString) (pos univ n partitions : Nat)
    (params : Params) (sizing : Sizing) : Except Failure (Layout table) := do
  let (width, pos) ← readingFrom bits.gamma pos
  if 64 < width then
    malformed "endpoint table" s!"{width} bits per entry"
  else
    let (sizes, pos) ← readSizes bits pos n partitions params sizing
    let uppers ← table.openAt bits pos univ (partitions + 1) params
    let stopsOffset := table.regionEnd pos univ (partitions + 1) params
    let stopsLength := (partitions - 1) * width
    bits.checkRange "endpoint table" stopsOffset stopsLength
    let payloadOffset := alignUp (stopsOffset + stopsLength) 8
    bits.checkRange "partition payloads" payloadOffset 0
    return {
      bits, params, n, univ, partitions, sizes
      uppers := some uppers
      single := ⟨0, n, 0, 0⟩
      stopWidth := width
      stopsOffset, payloadOffset }

/-- Reads the header and opens the tables of a region. -/
def read (table : TableFormat) (bits : BitString) (offset univ n : Nat) (params : Params)
    (sizing : Sizing) : Except Failure (Layout table) := do
  if n = 0 then
    throw (.refused (.invalidArgument "n" "partitioned sequence is empty"))
  let (partitions, pos) ← readingFrom bits.gammaPositive offset
  if n < partitions then
    malformed "partition count" s!"{partitions} partitions for {n} values"
  else if partitions = 1 then
    readSingle table bits pos univ n params
  else
    readSeveral table bits pos univ n partitions params sizing

/-- The positions of a partition, and the layout whose cursor has moved to it. -/
def positions (l : Layout table) (partition : Nat) :
    Except Failure ((Nat × Nat) × Layout table) :=
  match l.sizes with
  | .single => .ok ((l.single.start, l.single.stop), l)
  | .stored ends => do
      let ends ← ends.moveTo partition
      return ((← ends.prevValue, ends.value), { l with sizes := .stored ends })
  | .uniform log =>
      let start := partition <<< log
      .ok ((start, min (start + 2 ^ log) l.n), l)

/-- The base and the last value of a partition, and the layout whose cursor has
moved to it. -/
def valueBounds (l : Layout table) (partition : Nat) :
    Except Failure ((Nat × Nat) × Layout table) :=
  match l.uppers with
  | none => .ok ((l.single.base, l.single.upper), l)
  | some uppers => do
      let uppers ← SequenceCursor.moveTo uppers (partition + 1)
      let before ← SequenceCursor.prevValue uppers
      return ((if 0 < partition then before + 1 else before, SequenceCursor.value uppers),
        { l with uppers := some uppers })

/-- The bounds of a partition. -/
def bounds (l : Layout table) (partition : Nat) : Except Failure (Bounds × Layout table) :=
  match l.sizes with
  | .single => .ok (l.single, l)
  | _ => do
      let ((start, stop), l) ← l.positions partition
      let ((base, upper), l) ← l.valueBounds partition
      return (⟨start, stop, base, upper⟩, l)

/-- Where the payload of a partition begins. -/
def payloadStart (l : Layout table) (partition : Nat) : Nat :=
  let start :=
    if partition = 0 then 0
    else l.bits.getBits (l.stopsOffset + (partition - 1) * l.stopWidth) l.stopWidth
  l.payloadOffset + start * 8

/-- Opens a partition. -/
def openPartition (nested : Format) (l : Layout table) (partition : Nat) :
    Except Failure (Bounds × nested.Cursor × Layout table) := do
  let (bounds, l) ← l.bounds partition
  if bounds.stop ≤ bounds.start ∨ bounds.upper < bounds.base then
    malformed "partition bounds" s!"partition {partition} is empty"
  else
    let cursor ← nested.openAt l.bits (l.payloadStart partition) (bounds.upper - bounds.base + 1)
      (bounds.stop - bounds.start) l.params
    return (bounds, cursor, l)

end Layout

/-! ## Walking -/

/-- A cursor over a partitioned region: one partition is open, and the values of
its cursor are relative to its base. -/
structure Cursor (nested : Format) (table : TableFormat) where
  /-- The region. -/
  layout : Layout table
  /-- The open partition. -/
  partition : Nat
  /-- Its bounds. -/
  bounds : Bounds
  /-- Its cursor. -/
  inner : nested.Cursor
  /-- The position in the sequence. -/
  position : Nat
  /-- The value there. -/
  value : Nat

namespace Cursor

variable {nested : Format} {table : TableFormat} (c : Cursor nested table)

/-- Opens another partition; a refusal is damage. -/
def switchTo (partition : Nat) : Except Failure (Cursor nested table) := do
  let (bounds, inner, layout) ←
    (c.layout.openPartition nested partition).mapError Failure.whileWalking
  return { c with layout, partition, bounds, inner }

/-- Moves to a position of the open partition. -/
def moveWithin (position : Nat) : Except Failure (Cursor nested table) := do
  let inner ← SequenceCursor.moveTo c.inner (position - c.bounds.start)
  return { c with inner, position, value := c.bounds.base + SequenceCursor.value inner }

/-- Moves to the first value of the open partition that is at least `bound`. -/
def nextGeqWithin (bound : Nat) : Except Failure (Cursor nested table) := do
  let inner ← SequenceCursor.nextGeq c.inner (bound - c.bounds.base)
  return { c with
    inner
    position := c.bounds.start + SequenceCursor.position inner
    value := c.bounds.base + SequenceCursor.value inner }

/-- Moves past the end.  The last partition is open then, and its cursor is past
its end, so that the last value is known. -/
def moveToEnd : Except Failure (Cursor nested table) := do
  let last := c.layout.partitions - 1
  let c ← if c.partition ≠ last then c.switchTo last else pure c
  let inner ← SequenceCursor.moveTo c.inner (c.bounds.stop - c.bounds.start)
  return { c with inner, position := c.layout.n, value := c.layout.univ }

/-- The partition of a position, and the cursor whose sizes have been searched. -/
def partitionOf (position : Nat) : Except Failure (Nat × Cursor nested table) :=
  match c.layout.sizes with
  | .single => .ok (0, c)
  | .stored ends => do
      let ends ← ends.nextGeq (position + 1)
      return (ends.position, { c with layout := { c.layout with sizes := .stored ends } })
  | .uniform log => .ok (position >>> log, c)

/-- Moves to a position. -/
def moveTo (position : Nat) : Except Failure (Cursor nested table) := do
  if c.bounds.start ≤ position ∧ position < c.bounds.stop then
    c.moveWithin position
  else if position = c.layout.n then
    c.moveToEnd
  else
    let (partition, c) ← c.partitionOf position
    (← c.switchTo partition).moveWithin position

/-- The place of a bound in the table of upper bounds, and the cursor whose table
has been searched.  Place zero is the first value, place `p` the last value of the
`p`-th partition. -/
def placeOf (bound : Nat) : Except Failure (Nat × Cursor nested table) :=
  match c.layout.uppers with
  | some uppers => do
      let uppers ← SequenceCursor.nextGeq uppers bound
      return (SequenceCursor.position uppers,
        { c with layout := { c.layout with uppers := some uppers } })
  | none => .ok (if bound ≤ c.bounds.base then 0 else c.layout.partitions + 1, c)

/-- Moves to the first value that is at least `bound`. -/
def nextGeq (bound : Nat) : Except Failure (Cursor nested table) := do
  if c.bounds.base ≤ bound ∧ bound ≤ c.bounds.upper then
    c.nextGeqWithin bound
  else
    let (place, c) ← c.placeOf bound
    if place = 0 then
      c.moveTo 0
    else if c.layout.partitions < place then
      c.moveToEnd
    else
      (← c.switchTo (place - 1)).nextGeqWithin bound

/-- Moves one position on. -/
def next : Except Failure (Cursor nested table) := do
  let position := c.position + 1
  if position < c.bounds.stop then
    let inner ← SequenceCursor.next c.inner
    return { c with inner, position, value := c.bounds.base + SequenceCursor.value inner }
  else if position = c.layout.n then
    c.moveToEnd
  else
    (← c.switchTo (c.partition + 1)).moveWithin position

/-- The value before the position. -/
def prevValue : Except Failure Nat := do
  if c.position = 0 then
    return 0
  else if c.position = c.bounds.start then
    return c.bounds.base - 1
  else
    return c.bounds.base + (← SequenceCursor.prevValue c.inner)

instance : SequenceCursor (Cursor nested table) where
  size c := c.layout.n
  position := position
  value := value
  moveTo := moveTo
  next := next
  nextGeq := nextGeq
  prevValue := prevValue

end Cursor

/-- Opens a region and its first partition. -/
def openAt (nested : Format) (table : TableFormat) (sizing : Sizing) (bits : BitString)
    (offset univ n : Nat) (params : Params) : Except Failure (Cursor nested table) := do
  let layout ← Layout.read table bits offset univ n params sizing
  let (bounds, inner, layout) ← layout.openPartition nested 0
  let inner ← SequenceCursor.moveTo inner 0
  return ⟨layout, 0, bounds, inner, 0, bounds.base + SequenceCursor.value inner⟩

/-- The number of partitions. -/
def shape {nested : Format} {table : TableFormat} (c : Cursor nested table) : Shape :=
  .partitions c.layout.partitions

/-! ## Uniform partitions -/

/-- The ends of partitions of `2 ^ log` values. -/
def uniformEnds (log n : Nat) : List Nat :=
  (List.range ((n + (2 ^ log - 1)) / 2 ^ log)).map fun p => min ((p + 1) * 2 ^ log) n

/-- Partitions of one size, in a nested format and with a table of upper bounds. -/
def uniform (nested : Format) (table : TableFormat) : Format where
  Cursor := Cursor nested table
  write values univ params config := do
    params.validate
    checkMonotone values univ
    let ends := uniformEnds params.partitionLog values.length
    writePartitions nested table .uniform values univ ends params config
  openAt bits offset univ n params := do
    params.validate
    Partitioned.openAt nested table .uniform bits offset univ n params
  shape := shape

end Partitioned
end Postings
