import Postings.Index.Cursor

/-!
# Documents that two terms share

Two cursors leapfrog: the second moves up to the docid of the first, and where it
lands beyond, the first moves up in turn.  Every round moves the first cursor on,
so there are at most as many rounds as it has postings.
-/

namespace Postings
namespace DocumentCursor

variable {scheme : Scheme}

/-- At most `rounds` rounds from where two cursors stand: the docids below
`numDocs` on which both come to rest, and the cursors in the end. -/
def leapfrog (numDocs : Nat) : (rounds : Nat) → (a b : DocumentCursor scheme) →
    Except Failure (List Nat × DocumentCursor scheme × DocumentCursor scheme)
  | 0, a, b => return ([], a, b)
  | rounds + 1, a, b => do
      if numDocs ≤ a.docid then return ([], a, b)
      let b ← b.nextGeq a.docid
      if numDocs ≤ b.docid then return ([], a, b)
      if b.docid = a.docid then
        let (docs, a', b') ← leapfrog numDocs rounds (← a.next) b
        return (a.docid :: docs, a', b')
      else
        leapfrog numDocs rounds (← a.nextGeq b.docid) b

/-- The documents that two lists of a collection share, from where two cursors
stand, and the cursors in the end. -/
def intersect (numDocs : Nat) (a b : DocumentCursor scheme) :
    Except Failure (List Nat × DocumentCursor scheme × DocumentCursor scheme) :=
  leapfrog numDocs (a.size + 1) a b

end DocumentCursor
end Postings
