import Postings.Power
import Postings.Sample.Draws

/-!
# Sampling docids

Docids are sampled in two shapes.  *Uniform* docids are spread over the whole
collection: many of them are chosen by passing over the collection once, few of
them are drawn until enough are different.  *Clustered* docids come in runs of
small gaps with long jumps between them; what the jumps may add up to is the
slack, the documents that are left over when every docid takes one.
-/

namespace Postings
namespace Sample

/-- A document number as a docid, which has 32 bits. -/
def docidOf (doc : Nat) : Nat := doc % 2 ^ 32

variable {σ : Type} (draws : Draws σ)

/-! ## Uniform docids -/

/-- Passes over the last `left` documents and keeps each with the probability
that `needed` of those that are left are kept. -/
def select (numDocs : Nat) : (left needed : Nat) → StateM σ (List Nat)
  | 0, _ => return []
  | left + 1, needed => do
      if needed = 0 then return []
      if (← draws.below 64 (left + 1)) < needed then
        return docidOf (numDocs - (left + 1)) :: (← select numDocs left (needed - 1))
      else
        select numDocs left needed

/-- Puts a number in its place in an ascending list, unless it is there. -/
def insertOnce (x : Nat) : List Nat → List Nat
  | [] => [x]
  | y :: ys =>
      if x < y then x :: y :: ys
      else if x = y then y :: ys
      else y :: insertOnce x ys

/-- Draws docids until there are `len` different ones, beginning with those that
are there; `none` if the rounds are over before. -/
def drawDistinct (numDocs len : Nat) : (rounds : Nat) → List Nat → OptionT (StateM σ) (List Nat)
  | 0, docs => if len ≤ docs.length then return docs else failure
  | rounds + 1, docs => do
      if len ≤ docs.length then return docs
      let doc ← draws.below 64 numDocs
      drawDistinct numDocs len rounds (insertOnce (docidOf doc) docs)

/-- `len` docids below `numDocs`, spread evenly; there are none if they would take
more than so many rounds. -/
def uniformDocs (rounds len numDocs : Nat) : OptionT (StateM σ) (List Nat) :=
  if numDocs < 2 * len then select draws numDocs numDocs len
  else drawDistinct draws numDocs len rounds []

/-! ## Clustered docids -/

/-- `count` docids from `start` on, with `slack` documents to spare and `run` of
them left in the current run. -/
def cluster : (count start slack run : Nat) → StateM σ (List Nat)
  | 0, _, _, _ => return []
  | count + 1, start, slack, 0 => do
      let run ← draws.between 64 1 256
      let jump ← draws.between 64 0 (slack / 4)
      return docidOf (start + jump) :: (← cluster count (start + jump + 1) (slack - jump) run)
  | count + 1, start, slack, run + 1 => do
      let gap ← draws.between 64 0 (min slack 3)
      return docidOf (start + gap) :: (← cluster count (start + gap + 1) (slack - gap) run)

/-- `len` docids below `numDocs`, in runs. -/
def clusteredDocs (len numDocs : Nat) : StateM σ (List Nat) :=
  cluster draws len 0 (numDocs - len) 0

end Sample
end Postings
