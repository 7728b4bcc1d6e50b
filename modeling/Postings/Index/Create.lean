import Postings.Density
import Postings.Index.Builder

/-!
# From a collection to its index

The parameters and settings are checked first, then the lists are added in order;
the first list that is refused refuses the collection.
-/

namespace Postings

/-- The size of an index. -/
structure IndexStats where
  /-- The number of terms. -/
  terms : Nat
  /-- The number of postings of all terms. -/
  postings : Nat
  /-- The size of the docs regions in bits. -/
  docsBits : Nat
  /-- The size of the frequency regions in bits. -/
  freqsBits : Nat
  deriving DecidableEq, Repr

namespace IndexStats

/-- Bits of the docs regions for each posting. -/
def docsBitsPerPosting (stats : IndexStats) : Float :=
  bitsPerPosting stats.docsBits stats.postings

/-- Bits of the frequency regions for each posting. -/
def freqsBitsPerPosting (stats : IndexStats) : Float :=
  bitsPerPosting stats.freqsBits stats.postings

end IndexStats

/-- The size of the index that a builder has come to. -/
def IndexBuilder.stats {scheme : Scheme} (builder : IndexBuilder scheme) : IndexStats :=
  { terms := builder.size
    postings := builder.postings
    docsBits := builder.docs.bits.size
    freqsBits := builder.freqs.bits.size }

namespace Index

/-- The index of a collection, and its size. -/
def create (scheme : Scheme) (numDocs : Nat) (lists : List PostingList) (params : Params)
    (config : BuildConfig) : Except Error (Index scheme × IndexStats) := do
  params.validate
  config.validate
  let start : IndexBuilder scheme := { params, numDocs }
  match Attempt.runFrom (lists.forM (IndexBuilder.addList · config)) start with
  | (.ok (), builder) => return (builder.build, builder.stats)
  | (.error e, _) => throw e

end Index
end Postings
