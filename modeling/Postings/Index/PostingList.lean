import Postings.Sequence.Monotone

/-!
# Posting lists

The posting list of a term names the documents in which the term occurs, in
ascending order, and says how often it occurs in each of them.  Docids and
frequencies are kept as two lists; they belong together by position.
-/

namespace Postings

/-- The postings of one term. -/
structure PostingList where
  /-- The documents in which the term occurs. -/
  docs : List Nat
  /-- How often it occurs in each of them. -/
  freqs : List Nat
  deriving DecidableEq, Repr

namespace PostingList

/-- The number of postings. -/
def size (list : PostingList) : Nat := list.docs.length

/-- No posting is there. -/
def isEmpty (list : PostingList) : Bool := list.docs.isEmpty

/-- How often the term occurs in all documents together. -/
def occurrences (list : PostingList) : Nat := list.freqs.foldr (· + ·) 0

/-- A list is fit for a collection of `numDocs` documents when it is not empty,
has a frequency for every docid, its docids increase strictly and name documents
of the collection, and no frequency is zero. -/
def validate (list : PostingList) (numDocs : Nat) : Except Error Unit := do
  match list.docs.getLast? with
  | none => throw (.invalidArgument "docs" "posting list is empty")
  | some last =>
      if list.docs.length ≠ list.freqs.length then
        throw (.invalidArgument "freqs"
          s!"{list.docs.length} docids but {list.freqs.length} frequencies")
      if let some (position, _, _) := firstAdjacent (fun a b => decide (b ≤ a)) 0 list.docs then
        throw (.invalidArgument "docs" s!"not strictly increasing at position {position}")
      if numDocs ≤ last then
        throw (.invalidArgument "docs" s!"docid {last} is not below {numDocs}")
      if let some position := list.freqs.findIdx? (· == 0) then
        throw (.invalidArgument "freqs" s!"zero frequency at position {position}")

end PostingList
end Postings
