import Postings.Codec.Kind
import Postings.Sequence.Adaptive

/-!
# What a partition costs

The planner estimates the payload of a partition from the costs of its postings.
The *base* of a value is the number after its predecessor, and the base of a
partition is that of its first value; the universe of a partition is tight, so it
reaches from the base to the last value.  A partition costs its estimated payload
and a fixed amount.

`Priced` carries the cost of a run along while values are added at its end, which
is how the planner uses it; `runCost` is the same sum from scratch.
-/

namespace Postings

/-- The sum of the posting costs of values of which the first has the given base. -/
def runCost (codec : Codec) (base : Nat) : List Nat → Nat
  | [] => 0
  | v :: values => codec.postingCost v base + runCost codec (v + 1) values

/-- The number after the last value; the base itself if there is no value. -/
def runStop (base : Nat) : List Nat → Nat
  | [] => base
  | v :: values => runStop (v + 1) values

/-- The cost of the partition of the given values and base. -/
def partitionCost (codec : Codec) (fixCost base : Nat) (values : List Nat) : Nat :=
  Adaptive.bitSize (runCost codec base values) (runStop base values - base) values.length + fixCost

/-- The cost of cutting values into consecutive partitions. -/
def planCost (codec : Codec) (fixCost base : Nat) : List (List Nat) → Nat
  | [] => 0
  | part :: parts =>
      partitionCost codec fixCost base part + planCost codec fixCost (runStop base part) parts

theorem runStop_append (base : Nat) (values others : List Nat) :
    runStop base (values ++ others) = runStop (runStop base values) others := by
  induction values generalizing base with
  | nil => rfl
  | cons v values ih => exact ih (v + 1)

/-- A run costs what its pieces cost. -/
theorem runCost_append (codec : Codec) (base : Nat) (values others : List Nat) :
    runCost codec base (values ++ others) =
      runCost codec base values + runCost codec (runStop base values) others := by
  induction values generalizing base with
  | nil => simp [runCost, runStop]
  | cons v values ih => simp [runCost, runStop, ih, Nat.add_assoc]

/-- What planning needs to know beside the values. -/
structure Pricing where
  /-- The codec of the partitions. -/
  codec : Codec
  /-- What every partition costs beside its payload. -/
  fixCost : Nat

/-- A run of values that is known by what it costs. -/
structure Priced where
  /-- The position after the run. -/
  stop : Nat
  /-- The number after its last value. -/
  stopBase : Nat
  /-- The sum of its posting costs. -/
  codecCost : Nat

namespace Priced

/-- The empty run at a position whose value has the given base. -/
def empty (position base : Nat) : Priced := ⟨position, base, 0⟩

/-- Adds a value at the end. -/
def add (codec : Codec) (run : Priced) (v : Nat) : Priced :=
  ⟨run.stop + 1, v + 1, run.codecCost + codec.postingCost v run.stopBase⟩

/-- Takes the first value away, given its base. -/
def dropFirst (codec : Codec) (run : Priced) (v base : Nat) : Priced :=
  { run with codecCost := run.codecCost - codec.postingCost v base }

/-- The cost of the run as a partition, given where it begins and its base. -/
def cost (pricing : Pricing) (run : Priced) (start base : Nat) : Nat :=
  Adaptive.bitSize run.codecCost (run.stopBase - base) (run.stop - start) + pricing.fixCost

end Priced

/-- A run that grows value by value has the cost of the whole run. -/
theorem foldl_add_eq (codec : Codec) (values : List Nat) (run : Priced) :
    values.foldl (Priced.add codec) run =
      ⟨run.stop + values.length, runStop run.stopBase values,
        run.codecCost + runCost codec run.stopBase values⟩ := by
  induction values generalizing run with
  | nil => rfl
  | cons v values ih =>
      rw [List.foldl_cons, ih]
      simp [Priced.add, runStop, runCost, Nat.add_assoc, Nat.add_comm 1]

end Postings
