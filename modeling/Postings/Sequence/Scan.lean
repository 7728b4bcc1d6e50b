import Postings.Sequence.PrefixSums

/-!
# Reading a sequence through

A scan starts at the first position and steps on; it answers with the values on
its way and leaves the cursor where it ended.
-/

namespace Postings
namespace SequenceCursor

variable {γ : Type} [SequenceCursor γ]

/-- The value where a cursor stands and those of the next `steps` positions. -/
def collect : (steps : Nat) → γ → Except Failure (List Nat × γ)
  | 0, c => return ([value c], c)
  | steps + 1, c => do
      let (values, last) ← collect steps (← next c)
      return (value c :: values, last)

/-- The value at the first position and those of the next `steps` positions. -/
def scan (c : γ) (steps : Nat) : Except Failure (List Nat × γ) := do
  collect steps (← moveTo c 0)

end SequenceCursor

namespace PrefixSums.Cursor

variable {format : Format}

/-- The next `steps` numbers. -/
def collect : (steps : Nat) → Cursor format → Except Failure (List Nat × Cursor format)
  | 0, c => return ([], c)
  | steps + 1, c => do
      let (value, c) ← c.next
      let (values, last) ← collect steps c
      return (value :: values, last)

/-- The first number and the next `steps` numbers. -/
def scan (c : Cursor format) (steps : Nat) : Except Failure (List Nat × Cursor format) := do
  let (first, c) ← c.moveTo 0
  let (values, last) ← collect steps c
  return (first :: values, last)

end PrefixSums.Cursor
end Postings
