import Postings.Bits.Regions
import Postings.Sequence.Format

/-!
# Inverted indexes

An index keeps two regions for every term of a collection.  The docs region is a
header and the sequence of the docids, below the number of documents; the
frequency region holds the frequencies as running sums, below the number of
occurrences plus one.  Which formats the two sequences have is the *scheme* of the
index; it is not stored, so whoever loads an index names it.
-/

namespace Postings

/-- The formats of the two sequences of a term. -/
structure Scheme where
  /-- The format of the docids. -/
  docs : Format
  /-- The format of the running sums of the frequencies. -/
  freqs : Format

namespace Scheme

/-- One format for both sequences. -/
def uniform (format : Format) : Scheme := ⟨format, format⟩

end Scheme

/-- An index of a collection. -/
structure Index (scheme : Scheme) where
  /-- The layout of every sequence in it. -/
  params : Params
  /-- The number of documents. -/
  numDocs : Nat
  /-- The docs regions, one for each term. -/
  docs : Regions
  /-- The frequency regions, one for each term. -/
  freqs : Regions
  deriving DecidableEq

namespace Index

variable {scheme : Scheme} (index : Index scheme)

/-- The number of terms. -/
def size : Nat := index.docs.size

/-- The size of the docs regions in bits. -/
def docsBits : Nat := index.docs.bits.size

/-- The size of the frequency regions in bits. -/
def freqsBits : Nat := index.freqs.bits.size

end Index
end Postings
