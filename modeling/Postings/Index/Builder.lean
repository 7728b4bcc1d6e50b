import Postings.Index.Basic
import Postings.Index.Header
import Postings.Index.PostingList
import Postings.Sequence.PrefixSums

/-!
# Building an index

A builder takes the posting lists of the terms in order.  Adding a list encodes
its two regions, and they join the collections one after the other: a list whose
frequencies are refused has left its docs region behind.
-/

namespace Postings

/-- An index under construction. -/
structure IndexBuilder (scheme : Scheme) where
  /-- The layout of every sequence. -/
  params : Params
  /-- The number of documents. -/
  numDocs : Nat
  /-- The docs regions so far. -/
  docs : Regions := .empty
  /-- The frequency regions so far. -/
  freqs : Regions := .empty
  /-- The number of postings so far. -/
  postings : Nat := 0
  deriving DecidableEq

namespace IndexBuilder

variable {scheme : Scheme}

/-- Regions begin and end at multiples of this many bits. -/
def regionAlignment : Nat := 8

/-- A region of its own: what is there before, what is written, and padding. -/
def region (start : BitString) (content : Writing Unit) : Except Error BitString :=
  match content.runFrom start with
  | (.ok (), bits) => .ok (bits.padTo regionAlignment)
  | (.error e, _) => .error e

/-- The docs region of a list. -/
def docsRegion (builder : IndexBuilder scheme) (header : ListHeader) (docs : List Nat)
    (config : BuildConfig) : Except Error BitString :=
  region header.bits (scheme.docs.write docs builder.numDocs builder.params config)

/-- The frequency region of a list. -/
def freqsRegion (builder : IndexBuilder scheme) (header : ListHeader) (freqs : List Nat)
    (config : BuildConfig) : Except Error BitString :=
  region .empty
    (PrefixSums.write scheme.freqs freqs (ListHeader.sumsUniv header.occurrences) builder.params
      config)

/-- What is asked of a list before anything is encoded. -/
def check (builder : IndexBuilder scheme) (header : ListHeader) (docs freqs : List Nat) :
    Except Error Unit := do
  if header.size = 0 then
    throw (.invalidArgument "n" "posting list must be non-empty")
  checkArgument "docs" "docs.len() as u64 == n" (docs.length == header.size)
  checkArgument "freqs" "freqs.len() as u64 == n" (freqs.length == header.size)
  if header.occurrences < header.size then
    throw (.invalidArgument "occurrences"
      s!"{header.occurrences} occurrences for {header.size} postings")
  checkUniverse builder.numDocs
  checkUniverse (ListHeader.sumsUniv header.occurrences)

/-- Adds the list of the next term. -/
def add (header : ListHeader) (docs freqs : List Nat) (config : BuildConfig) :
    Attempt (IndexBuilder scheme) Unit := do
  let builder : IndexBuilder scheme ← get
  builder.check header docs freqs
  let docsRegion ← builder.docsRegion header docs config
  modify fun builder => { builder with docs := builder.docs.push docsRegion }
  let freqsRegion ← builder.freqsRegion header freqs config
  modify fun builder => { builder with
    freqs := builder.freqs.push freqsRegion
    postings := builder.postings + header.size }

/-- Adds a posting list after a check that it is fit for the collection. -/
def addList (list : PostingList) (config : BuildConfig) : Attempt (IndexBuilder scheme) Unit := do
  let builder : IndexBuilder scheme ← get
  list.validate builder.numDocs
  add ⟨list.occurrences, list.size⟩ list.docs list.freqs config

variable (builder : IndexBuilder scheme)

/-- The number of terms so far. -/
def size : Nat := builder.docs.size

/-- No term was added. -/
def isEmpty : Bool := builder.docs.isEmpty

/-- The index of the terms that were added. -/
def build : Index scheme :=
  { params := builder.params
    numDocs := builder.numDocs
    docs := builder.docs
    freqs := builder.freqs }

end IndexBuilder
end Postings
