import Postings.Index.Cursor

/-!
# Comparing an index with a collection

An index is compared with a collection term by term, and within a term posting by
posting, the docid before the frequency.  The first difference is reported: what
the collection has is expected, what the index has is found.
-/

namespace Postings
namespace Index

variable {scheme : Scheme}

/-- Refuses a number that is not what the collection has. -/
def expect (term position : Nat) (field : Field) (expected actual : Nat) : Except Error Unit :=
  if actual = expected then .ok ()
  else .error (.verificationMismatch term position field expected actual)

/-- Compares postings with those from where a cursor stands. -/
def verifyPostings (term : Nat) : (position : Nat) → DocumentCursor scheme → List (Nat × Nat) →
    Except Failure Unit
  | _, _, [] => return
  | position, c, (doc, freq) :: postings => do
      let c ← if position = 0 then pure c else c.next
      expect term position .docid doc c.docid
      let (actual, c) ← c.freq
      expect term position .freq freq actual
      verifyPostings term (position + 1) c postings

/-- Compares the list of one term. -/
def verifyTerm (index : Index scheme) (term : Nat) (list : PostingList) :
    Except Failure Unit := do
  if index.size ≤ term then
    throw (.refused (.verificationMismatch term 0 .termCount (term + 1) index.size))
  let c ← index.get term
  expect term 0 .size list.size c.size
  verifyPostings term 0 c (list.docs.zip list.freqs)

/-- Compares the terms from `term` on. -/
def verifyFrom (index : Index scheme) : (term : Nat) → List PostingList → Except Failure Unit
  | term, [] => expect term 0 .termCount term index.size
  | term, list :: lists => do
      index.verifyTerm term list
      index.verifyFrom (term + 1) lists

/-- Compares an index with a collection. -/
def verify (index : Index scheme) (lists : List PostingList) : Except Failure Unit :=
  index.verifyFrom 0 lists

end Index
end Postings
