/-!
# How densely postings are stored
-/

namespace Postings

/-- A number of bits spread over the postings that they store; no postings count
as one. -/
def bitsPerPosting (bits postings : Nat) : Float :=
  bits.toFloat / (max postings 1).toFloat

end Postings
