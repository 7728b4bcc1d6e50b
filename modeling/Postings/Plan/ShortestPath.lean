/-!
# Cheapest ways to the positions of a list

Cutting a list into partitions is finding a way from position zero to its end,
where a partition is an edge from its first position to the one after its last.
`Routes` keeps, for every position, the cost of the cheapest way found so far and
the position that this way comes from.  It starts with the way of a single edge,
and `relax` offers it further edges.
-/

namespace Postings

/-- A way of cutting a list: where its partitions end, and what they cost. -/
structure Plan where
  /-- The ends of the partitions, ascending; the last is the length of the list. -/
  ends : List Nat
  /-- The sum of the costs. -/
  cost : Nat
  deriving DecidableEq, Repr

/-- The cheapest ways found so far. -/
structure Routes where
  /-- The cost of the way to each position, if there is one. -/
  costs : Array (Option Nat)
  /-- The position before it on that way. -/
  origins : Array Nat

namespace Routes

/-- The way of a single edge to position `n`. -/
def start (n singleCost : Nat) : Routes where
  costs := ((Array.replicate (n + 1) none).setIfInBounds 0 (some 0)).setIfInBounds n
    (some singleCost)
  origins := Array.replicate (n + 1) 0

/-- The cost of the way to a position. -/
def cost? (r : Routes) (position : Nat) : Option Nat :=
  r.costs[position]?.join

/-- Takes the edge `source → target` if it makes the way to `target` cheaper. -/
def relax (r : Routes) (source target edgeCost : Nat) : Routes :=
  match r.cost? source with
  | none => r
  | some cost =>
      let cost := cost + edgeCost
      let better := match r.cost? target with
        | none => true
        | some known => cost < known
      if better then
        ⟨r.costs.setIfInBounds target (some cost), r.origins.setIfInBounds target source⟩
      else r

/-- The positions of the way to `position`, in front of those after it. -/
def trace (r : Routes) (position : Nat) (after : List Nat) : (steps : Nat) → List Nat
  | 0 => after
  | steps + 1 =>
      if position = 0 then after
      else trace r (r.origins[position]?.getD 0) (position :: after) steps

/-- The way to the last position. -/
def plan (r : Routes) : Plan :=
  let n := r.costs.size - 1
  ⟨r.trace n [] n, (r.cost? n).getD 0⟩

end Routes
end Postings
