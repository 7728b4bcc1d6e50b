import Postings.Sequence.Planned
import Postings.Sequence.Scan

/-!
# Archives of lists

An archive holds lists one after the other in one bit string, each in a record of
its own: where the record ends, in 64 bits, the universe and the number of values
of the list, in 32 bits each, and the list, in partitions chosen by the planner.
The records can be found without any other table.
-/

namespace Postings

/-- What the lists of an archive are. -/
inductive ListKind where
  /-- Strictly increasing docids. -/
  | docs
  /-- Positive frequencies, stored as running sums. -/
  | freqs
  deriving DecidableEq, Repr

/-- The least universe that a list fits into. -/
def ListKind.univOf : ListKind → List Nat → Nat
  | .docs, values => values.getLastD 0 + 1
  | .freqs, values => values.foldr (· + ·) 0 + 1

/-- Writes a list for an archive. -/
def ListKind.write (kind : ListKind) (codec : Codec) (values : List Nat) (univ : Nat)
    (params : Params) (config : BuildConfig) : Writing Unit :=
  match kind with
  | .docs => (Partitioned.planned codec).write values univ params config
  | .freqs => PrefixSums.write (Partitioned.planned codec) values univ params config

/-- Where a list of an archive is, and what its header says. -/
structure ListRecord where
  /-- Where the values begin. -/
  offset : Nat
  /-- The universe. -/
  univ : Nat
  /-- The number of values. -/
  n : Nat
  deriving DecidableEq, Repr

/-- Lists in one bit string. -/
structure Archive where
  /-- What the lists are. -/
  kind : ListKind
  /-- The layout of every list. -/
  params : Params
  /-- The records. -/
  bits : BitString
  /-- The number of lists. -/
  lists : Nat
  /-- The number of values of all lists. -/
  postings : Nat
  deriving DecidableEq

namespace Archive

/-- The size of a record without its list. -/
def headerBits : Nat := 64 + 32 + 32

/-- The records from a position on. -/
def recordsFrom (bits : BitString) (pos : Nat) : Except Error (List ListRecord) := do
  if pos < bits.size then
    bits.checkRange "list record header" pos headerBits
    let stop := bits.getBits pos 64
    if _ : pos + headerBits ≤ stop ∧ stop ≤ bits.size then
      let record : ListRecord :=
        { offset := pos + headerBits
          univ := bits.getBits (pos + 64) 32
          n := bits.getBits (pos + 96) 32 }
      return record :: (← recordsFrom bits stop)
    else
      throw (.invalidFormat "record_end" "end >= pos + HEADER_BITS && end <= self.bits.len()")
  else return []
termination_by bits.size - pos
decreasing_by
  rename_i h
  have := h.1
  simp only [headerBits] at this
  omega

variable (archive : Archive)

/-- Where the lists are. -/
def records : Except Error (List ListRecord) := recordsFrom archive.bits 0

/-- The values of a list that was written with the given codec. -/
def decode (codec : Codec) (record : ListRecord) : Except Failure (List Nat) := do
  let format := Partitioned.planned codec
  match archive.kind with
  | .docs =>
      let c ← format.openAt archive.bits record.offset record.univ record.n archive.params
      return (← SequenceCursor.scan c (record.n - 1)).1
  | .freqs =>
      let c ← PrefixSums.openAt format archive.bits record.offset record.univ record.n
        archive.params
      return (← c.scan (record.n - 1)).1

end Archive
end Postings
