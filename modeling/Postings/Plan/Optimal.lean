import Postings.Plan.Windows
import Postings.Sequence.Monotone

/-!
# Planning a list

A list is planned as a whole, or cut into superblocks that are planned on their
own; then no partition crosses the edge of a superblock.  Superblocks all have the
same number of values, and what is left over joins the last of them.
-/

namespace Postings

/-- The number of values of a superblock: `fixCost / eps3`, and all of them when
`eps3` is zero. -/
def superblockSize (config : BuildConfig) (n : Nat) : Nat :=
  if config.eps3 == 0.0 then n
  else max (wholePart (nearestFloat config.fixCost / config.eps3)) 1

/-- Cuts values into superblocks, each with its base. -/
def superblocks (size base : Nat) (values : List Nat) : List (Nat × List Nat) :=
  if values.length < 2 * size ∨ size = 0 then
    if values.isEmpty then [] else [(base, values)]
  else
    let block := values.take size
    (base, block) :: superblocks size (runStop base block) (values.drop size)
termination_by values.length
decreasing_by simp only [List.length_drop]; omega

/-- The plan of a list from the plans of its superblocks, the first of which
begins at `start`. -/
def joinPlans (start : Nat) : List Plan → Plan
  | [] => ⟨[], 0⟩
  | plan :: plans =>
      let rest := joinPlans (start + plan.ends.getLastD 0) plans
      ⟨plan.ends.map (start + ·) ++ rest.ends, plan.cost + rest.cost⟩

/-- Plans one superblock. -/
def planBlock (codec : Codec) (config : BuildConfig) (base : Nat) (values : List Nat) : Plan :=
  let pricing : Pricing := ⟨codec, config.fixCost⟩
  if config.isExact then planExact pricing base values
  else
    let bounds := windowBounds config (lowestCost pricing) (singleCost pricing base values)
    planWindows pricing base bounds values

/-- Plans the partitions of a strictly increasing list; the first partition is
relative to `base`. -/
def planPartitions (codec : Codec) (values : List Nat) (base univ : Nat) (config : BuildConfig) :
    Except Error Plan := do
  config.validate
  checkMonotone values univ
  let first := values.headD 0
  if first < base then
    throw (.invalidArgument "base" s!"base {base} exceeds the first value {first}")
  let blocks := superblocks (superblockSize config values.length) base values
  return joinPlans 0 (blocks.map fun (base, block) => planBlock codec config base block)

end Postings
