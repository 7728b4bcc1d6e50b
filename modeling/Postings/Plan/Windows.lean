import Postings.Plan.Exact

/-!
# Planning with windows

Offering every partition takes quadratic time.  Instead a few *windows* slide over
the list, each with a bound on the cost of the partitions that it looks at.  All
windows begin at the same position.  Their ends only move on: at each position a
window takes up values until its cost reaches its bound, and on the way it offers
the run up to each of its ends.  The next window begins where this one ended.
Since a partition never becomes cheaper when it grows, for every partition some
window offers one that is hardly more expensive and ends at least as far.

The bounds grow from the lowest cost that a partition can have.  `planWindows` is
given them as a list; `windowBounds` chooses them.
-/

namespace Postings

/-- A window; where it begins is common to all windows. -/
structure Window where
  /-- The run from there to the end of the window. -/
  run : Priced
  /-- The values after the end. -/
  ahead : List Nat
  /-- The window stops growing when its cost reaches this. -/
  bound : Nat

namespace Window

/-- Takes up values until the window ends at `target` or later. -/
def catchUp (codec : Codec) (target : Nat) (run : Priced) : (ahead : List Nat) → Priced × List Nat
  | [] => (run, [])
  | v :: ahead =>
      if run.stop < target then catchUp codec target (run.add codec v) ahead
      else (run, v :: ahead)

/-- Offers the run, and longer ones until the cost reaches the bound. -/
def grow (pricing : Pricing) (bound start base : Nat) (run : Priced) (routes : Routes) :
    (ahead : List Nat) → (Priced × List Nat) × Routes
  | [] => ((run, []), routes.relax start run.stop (run.cost pricing start base))
  | v :: ahead =>
      let cost := run.cost pricing start base
      let routes := routes.relax start run.stop cost
      if bound ≤ cost then ((run, v :: ahead), routes)
      else grow pricing bound start base (run.add pricing.codec v) routes ahead

end Window

/-- One position, window after window: each ends no earlier than the last, whose
end is `reached`. -/
def passWindows (pricing : Pricing) (start base reached : Nat) (routes : Routes) :
    List Window → List Window × Routes
  | [] => ([], routes)
  | w :: windows =>
      let (run, ahead) := Window.catchUp pricing.codec reached w.run w.ahead
      let ((run, ahead), routes) := Window.grow pricing w.bound start base run routes ahead
      let (windows, routes) := passWindows pricing start base run.stop routes windows
      (⟨run, ahead, w.bound⟩ :: windows, routes)

/-- All positions from `start` on, where the values that follow have the given
base.  A partition of one value is always offered, so that every position can be
reached. -/
def sweep (pricing : Pricing) (start base : Nat) (windows : List Window) (routes : Routes) :
    List Nat → Routes
  | [] => routes
  | v :: values =>
      let one := (Priced.empty start base).add pricing.codec v
      let routes := routes.relax start one.stop (one.cost pricing start base)
      let (windows, routes) := passWindows pricing start base one.stop routes windows
      let windows := windows.map fun w => { w with run := w.run.dropFirst pricing.codec v base }
      sweep pricing (start + 1) (v + 1) windows routes values

/-- The cheapest plan of the partitions that windows with the given bounds see. -/
def planWindows (pricing : Pricing) (base : Nat) (bounds : List Nat) (values : List Nat) : Plan :=
  let windows := bounds.map fun bound => ⟨.empty 0 base, values, bound⟩
  let routes := Routes.start values.length (singleCost pricing base values)
  (sweep pricing 0 base windows routes values).plan

/-! ## Bounds -/

/-- The lowest cost of a partition: one value in a universe of one. -/
def lowestCost (pricing : Pricing) : Nat :=
  max (Adaptive.bitSize 0 1 1 + pricing.fixCost) 1

/-- Bounds from `bound` on, until one is capped or is at least `last`.  A bound
grows by at least one. -/
def boundsFrom (capped : Nat → Bool) (grown : Nat → Nat) (last bound : Nat) : List Nat :=
  if capped bound then []
  else if last ≤ bound then [bound]
  else bound :: boundsFrom capped grown last (max (bound + 1) (grown bound))
termination_by last - bound

/-- A natural number below `2 ^ 64` as the nearest floating-point number. -/
def nearestFloat (x : Nat) : Float := x.toUInt64.toFloat

/-- The whole part of a floating-point number, from zero to `2 ^ 64 - 1`. -/
def wholePart (x : Float) : Nat := x.toUInt64.toNat

/-- The bounds of the windows: each is `1 + eps2` times the last, up to `1 / eps1`
times the lowest cost, and none is needed above the cost of a single partition. -/
def windowBounds (config : BuildConfig) (lowest last : Nat) : List Nat :=
  let capped := fun bound =>
    config.eps1 != 0.0 && nearestFloat bound ≥ nearestFloat lowest / config.eps1
  let grown := fun bound => wholePart (nearestFloat bound * (1.0 + config.eps2))
  match boundsFrom capped grown last lowest with
  | [] => [lowest]
  | bounds => bounds

end Postings
