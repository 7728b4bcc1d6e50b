import Postings.Error
import Postings.Power

/-!
# Lists that can be stored

Docids are 32-bit numbers, so a universe has at most `2 ^ 32` values.  The lists
that the formats store are non-empty, strictly increasing and below their
universe; `checkMonotone` says what is wrong with a list that is not.
-/

namespace Postings

/-- The largest universe whose values all fit a posting. -/
def maxUniverse : Nat := 2 ^ 32

/-- Refuses a universe with values that do not fit a posting. -/
def checkUniverse (univ : Nat) : Except Error Unit :=
  if maxUniverse < univ then .error (.codecOverflow "u32 posting" univ) else .ok ()

/-- The first place where two neighbours are related by `r`: the position of the
second, and the two. -/
def firstAdjacent (r : Nat → Nat → Bool) (position : Nat) : List Nat → Option (Nat × Nat × Nat)
  | a :: b :: rest =>
      if r a b then some (position + 1, a, b) else firstAdjacent r (position + 1) (b :: rest)
  | _ => none

/-- Refuses a list that is empty, that does not increase strictly, or that reaches
its universe, and a universe that is too large. -/
def checkMonotone (values : List Nat) (univ : Nat) : Except Error Unit := do
  match values.getLast? with
  | none => throw (.invalidArgument "values" "sequence is empty")
  | some last =>
      checkUniverse univ
      if let some (position, a, b) := firstAdjacent (fun a b => decide (b ≤ a)) 0 values then
        throw (.invalidArgument "values"
          s!"not strictly increasing at position {position}: {a} then {b}")
      if univ ≤ last then
        throw (.invalidArgument "universe"
          s!"value {last} is not below the universe {univ}")

end Postings
