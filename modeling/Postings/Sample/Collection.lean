import Postings.Index.PostingList
import Postings.Sample.Docs

/-!
# Sampling collections

A sampled collection has a given number of posting lists over a given number of
documents, with lengths and frequencies within bounds.  A coin decides for every
list whether its docids are spread or clustered.
-/

namespace Postings

/-- What a sampled collection is to look like. -/
structure CollectionSpec where
  /-- The number of documents. -/
  numDocs : Nat
  /-- The number of posting lists. -/
  numTerms : Nat
  /-- The length of the shortest list. -/
  minLen : Nat
  /-- The length of the longest list. -/
  maxLen : Nat
  /-- The largest frequency. -/
  maxFreq : Nat
  deriving DecidableEq, Repr

/-- Why no collection looks like that. -/
inductive SpecError where
  | noDocuments
  | tooManyDocuments (numDocs : Nat)
  | badLengths (minLen maxLen : Nat)
  | listsTooLong (maxLen numDocs : Nat)
  | noFrequency
  deriving DecidableEq, Repr

/-- The wording of a cause. -/
def SpecError.message : SpecError → String
  | .noDocuments => "empty document collection"
  | .tooManyDocuments numDocs => s!"{numDocs} documents do not fit 32-bit docids"
  | .badLengths minLen maxLen => s!"invalid list lengths {minLen}..={maxLen}"
  | .listsTooLong maxLen numDocs => s!"lists of {maxLen} postings over {numDocs} documents"
  | .noFrequency => "max_freq must be positive"

/-- Refuses what no collection looks like. -/
def CollectionSpec.check (spec : CollectionSpec) : Except SpecError Unit := do
  if spec.numDocs = 0 then throw .noDocuments
  if maxUniverse < spec.numDocs then throw (.tooManyDocuments spec.numDocs)
  if spec.minLen = 0 ∨ spec.maxLen < spec.minLen then
    throw (.badLengths spec.minLen spec.maxLen)
  if spec.numDocs < spec.maxLen then throw (.listsTooLong spec.maxLen spec.numDocs)
  if spec.maxFreq = 0 then throw .noFrequency

namespace Sample

variable {σ : Type} (draws : Draws σ)

/-- A frequency: one byte in sixteen allows the whole range, the others only the
numbers up to three. -/
def freq (maxFreq : Nat) : StateM σ Nat := do
  if (← draws.byte) < 16 then draws.between 32 1 maxFreq
  else draws.between 32 1 (min maxFreq 3)

/-- `len` frequencies. -/
def freqs (maxFreq : Nat) : (len : Nat) → StateM σ (List Nat)
  | 0 => return []
  | len + 1 => do
      let f ← freq draws maxFreq
      return f :: (← freqs maxFreq len)

/-- A posting list. -/
def postingList (rounds : Nat) (spec : CollectionSpec) : OptionT (StateM σ) PostingList := do
  let len ← draws.between 64 spec.minLen spec.maxLen
  let docs ← if ← draws.coin then uniformDocs draws rounds len spec.numDocs
    else clusteredDocs draws len spec.numDocs
  return { docs, freqs := ← freqs draws spec.maxFreq len }

/-- `count` posting lists. -/
def postingLists (rounds : Nat) (spec : CollectionSpec) :
    (count : Nat) → OptionT (StateM σ) (List PostingList)
  | 0 => return []
  | count + 1 => do
      let list ← postingList draws rounds spec
      return list :: (← postingLists rounds spec count)

/-- The collection that a source draws from a state; there is none if the source
keeps drawing the same docids, for more rounds than a list may take. -/
def collection (rounds : Nat) (spec : CollectionSpec) (s : σ) :
    Except SpecError (Option (List PostingList)) := do
  spec.check
  return ((postingLists draws rounds spec spec.numTerms).run s).1

end Sample
end Postings
