import Postings.Plan.Cost
import Postings.Plan.ShortestPath

/-!
# Planning exactly

Every partition is offered as an edge, from every position to every later one.
Positions are taken in order, so the way to a position is settled when the edges
from it are offered, and the plan is the cheapest of all.
-/

namespace Postings

/-- Offers every run that begins with `run`, which begins at `start` with the given
base; the values that follow it are listed. -/
def offerRuns (pricing : Pricing) (start base : Nat) (run : Priced) (routes : Routes) :
    List Nat → Routes
  | [] => routes
  | v :: values =>
      let run := run.add pricing.codec v
      offerRuns pricing start base run
        (routes.relax start run.stop (run.cost pricing start base)) values

/-- Offers every run from position `start` on, where the values that follow have
the given base. -/
def offerAll (pricing : Pricing) (start base : Nat) (routes : Routes) : List Nat → Routes
  | [] => routes
  | v :: values =>
      let routes := offerRuns pricing start base (.empty start base) routes (v :: values)
      offerAll pricing (start + 1) (v + 1) routes values

/-- The cost of all values in one partition. -/
def singleCost (pricing : Pricing) (base : Nat) (values : List Nat) : Nat :=
  partitionCost pricing.codec pricing.fixCost base values

/-- The cheapest of all plans. -/
def planExact (pricing : Pricing) (base : Nat) (values : List Nat) : Plan :=
  (offerAll pricing 0 base (.start values.length (singleCost pricing base values)) values).plan

end Postings
