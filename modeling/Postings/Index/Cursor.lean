import Postings.Index.Basic
import Postings.Index.Header
import Postings.Index.PostingList
import Postings.Sequence.PrefixSums

/-!
# Walking a posting list

A document cursor is a cursor over the docids of a term, and beside it one over
the frequencies, which moves only when a frequency is asked for.  Past the end
the docid is the number of documents, so that cursors over several lists can be
moved against each other until one of them shows it.
-/

namespace Postings

/-- A cursor over the postings of one term. -/
structure DocumentCursor (scheme : Scheme) where
  /-- The cursor over the docids; it tells where the document cursor stands. -/
  docs : scheme.docs.Cursor
  /-- The cursor over the frequencies, wherever it was asked last. -/
  freqs : PrefixSums.Cursor scheme.freqs
  /-- The sum of the frequencies. -/
  occurrences : Nat

namespace DocumentCursor

variable {scheme : Scheme} (c : DocumentCursor scheme)

/-- The number of postings. -/
def size : Nat := SequenceCursor.size c.docs

/-- Where the cursor stands; `size` is past the end. -/
def position : Nat := SequenceCursor.position c.docs

/-- The docid there; the number of documents past the end. -/
def docid : Nat := SequenceCursor.value c.docs

/-- Moves to a position up to `size`. -/
def moveTo (position : Nat) : Except Failure (DocumentCursor scheme) := do
  return { c with docs := ← SequenceCursor.moveTo c.docs position }

/-- Back to the first posting. -/
def reset : Except Failure (DocumentCursor scheme) := c.moveTo 0

/-- Moves one position on; the cursor must not be past the end. -/
def next : Except Failure (DocumentCursor scheme) := do
  return { c with docs := ← SequenceCursor.next c.docs }

/-- Moves to the first docid that is at least the bound, or past the end. -/
def nextGeq (bound : Nat) : Except Failure (DocumentCursor scheme) := do
  return { c with docs := ← SequenceCursor.nextGeq c.docs bound }

/-- The frequency of the posting where the cursor stands, which must not be past
the end. -/
def freq : Except Failure (Nat × DocumentCursor scheme) := do
  let (value, freqs) ← c.freqs.moveTo c.position
  return (value, { c with freqs })

/-- The next `count` postings, from where the cursor stands. -/
def collect : (count : Nat) → DocumentCursor scheme → Except Failure (List (Nat × Nat))
  | 0, _ => return []
  | 1, c => do
      let (freq, _) ← c.freq
      return [(c.docid, freq)]
  | count + 2, c => do
      let (freq, c) ← c.freq
      return (c.docid, freq) :: (← collect (count + 1) (← c.next))

/-- All postings of the list. -/
def toPostingList : Except Failure PostingList := do
  let start ← c.reset
  let postings ← start.collect start.size
  return ⟨postings.map Prod.fst, postings.map Prod.snd⟩

end DocumentCursor

namespace Index

variable {scheme : Scheme}

/-- Opens the posting list of a term, at its first posting. -/
def get (index : Index scheme) (term : Nat) : Except Failure (DocumentCursor scheme) := do
  if index.size ≤ term then
    throw (.refused (.invalidArgument "term" s!"term {term} out of range for {index.size} terms"))
  let (header, start) := (ListHeader.read index.docs.bits).runFrom (index.docs.offset term)
  let header ← header
  let docs ← scheme.docs.openAt index.docs.bits start index.numDocs header.size index.params
  let freqs ← PrefixSums.openAt scheme.freqs index.freqs.bits (index.freqs.offset term)
    (ListHeader.sumsUniv header.occurrences) header.size index.params
  DocumentCursor.reset ⟨docs, freqs, header.occurrences⟩

end Index
end Postings
