import Postings.Index.Basic

/-!
# An index on disk

The stored form is the number of documents, the three parameters in a byte each,
the docs regions and the frequency regions.
-/

namespace Postings

/-- The stored form of layout parameters. -/
def Params.store (params : Params) : List UInt8 :=
  leBytes 1 params.partitionLog ++ leBytes 1 params.bucketLog ++ leBytes 1 params.elementLog

/-- Reads layout parameters and refuses any that no sequence is written with. -/
def Params.load : Loading Params := do
  let context := "index parameters"
  let partitionLog ← loadU8 context
  let bucketLog ← loadU8 context
  let elementLog ← loadU8 context
  let params : Params := { partitionLog, bucketLog, elementLog }
  match params.validate with
  | .ok () => return params
  | .error e => throw (.invalidFormat context e.message)

namespace Index

variable {scheme : Scheme}

/-- The stored form. -/
def store (index : Index scheme) : List UInt8 :=
  leBytes 8 index.numDocs ++ index.params.store ++ index.docs.store ++ index.freqs.store

/-- Reads an index; it must have as many frequency regions as docs regions. -/
def load (scheme : Scheme) : Loading (Index scheme) := do
  let numDocs ← loadU64 "index header"
  let params ← Params.load
  let docs ← Regions.load
  let freqs ← Regions.load
  if docs.size ≠ freqs.size then
    throw (.invalidFormat "index" s!"{docs.size} docs regions, {freqs.size} frequency regions")
  return { params, numDocs, docs, freqs }

/-- Reads an index from the front of a list of bytes. -/
def ofStored (scheme : Scheme) (bytes : List UInt8) : Except Error (Index scheme) :=
  (Attempt.runFrom (load scheme) bytes).1

end Index
end Postings
