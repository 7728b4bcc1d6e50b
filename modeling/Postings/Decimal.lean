import Postings.Power

/-!
# Shortest decimal text of a binary fraction

A finite number is `m * 2 ^ q`.  Every decimal that lies nearer to it than to its
neighbours reads back as the same number, so those decimals form an interval whose
ends lie half way to the neighbours; the ends belong to it when `m` is even.  The
text is the one with the fewest digits: of the grids of the multiples of
`10 ^ p`, the coarsest that has a point in the interval, and on it the point
nearest to the number, the upper one of two.  All of it is arithmetic on natural
numbers.  The digits are written out without an exponent.
-/

namespace Postings

/-- A ratio of natural numbers. -/
structure Ratio where
  num : Nat
  den : Nat

namespace Ratio

/-- `x * 2 ^ e`. -/
def scaled (x : Nat) (e : Int) : Ratio :=
  if e < 0 then ⟨x, 2 ^ (-e).toNat⟩ else ⟨x * 2 ^ e.toNat, 1⟩

/-- `x * 10 ^ e`. -/
def decimal (x : Nat) (e : Int) : Ratio :=
  if e < 0 then ⟨x, 10 ^ (-e).toNat⟩ else ⟨x * 10 ^ e.toNat, 1⟩

/-- Order of ratios with positive denominators. -/
def lt (a b : Ratio) : Bool := a.num * b.den < b.num * a.den

/-- Order of ratios with positive denominators, equality included. -/
def le (a b : Ratio) : Bool := a.num * b.den ≤ b.num * a.den

/-- The whole part of `a / 10 ^ e`. -/
def wholeTens (a : Ratio) (e : Int) : Nat :=
  if e < 0 then a.num * 10 ^ (-e).toNat / a.den else a.num / (a.den * 10 ^ e.toNat)

end Ratio

/-- A positive number `m * 2 ^ q` with the decimals that read back as it. -/
structure Rounding where
  /-- The number. -/
  number : Ratio
  /-- Half way to the neighbour below. -/
  low : Ratio
  /-- Half way to the neighbour above. -/
  high : Ratio
  /-- The ends of the interval belong to it. -/
  closed : Bool

namespace Rounding

/-- The rounding interval of `m * 2 ^ q`.  Below a power of two the neighbours are
half as far apart. -/
def of (m : Nat) (q : Int) (belowIsCloser : Bool) : Rounding where
  number := .scaled (4 * m) (q - 2)
  low := .scaled (4 * m - if belowIsCloser then 1 else 2) (q - 2)
  high := .scaled (4 * m + 2) (q - 2)
  closed := m % 2 == 0

/-- A decimal reads back as the number. -/
def contains (r : Rounding) (x : Ratio) : Bool :=
  if r.closed then r.low.le x && x.le r.high else r.low.lt x && x.lt r.high

/-- The point of the grid `10 ^ p` that reads back as the number, the nearer one
if there are two. -/
def onGrid (r : Rounding) (p : Int) : Option Nat :=
  let below := r.number.wholeTens p
  let above := below + 1
  match r.contains (.decimal below p), r.contains (.decimal above p) with
  | false, false => none
  | true, false => some below
  | false, true => some above
  | true, true =>
      -- the number lies at or above the middle of the two points
      if (Ratio.decimal (2 * below + 1) p).le ⟨2 * r.number.num, r.number.den⟩ then some above
      else some below

/-- The first grid with a point that reads back, from `10 ^ p` downwards. -/
def shortestFrom (r : Rounding) (p : Int) : (steps : Nat) → Nat × Int
  | 0 => (0, 0)
  | steps + 1 =>
      match r.onGrid p with
      | some digits => (digits, p)
      | none => shortestFrom r (p - 1) steps

/-- The shortest decimal that reads back, as digits and an exponent of ten.  No
number is as large as `10 ^ 310`, and none needs a grid below `10 ^ (-330)`. -/
def shortest (r : Rounding) : Nat × Int :=
  r.shortestFrom 310 640

end Rounding

/-- `digits * 10 ^ p` without an exponent. -/
def positional (digits : Nat) (p : Int) : String :=
  let text := toString digits
  if p < 0 then
    let places := (-p).toNat
    let padded := "".pushn '0' (places + 1 - text.length) ++ text
    let whole := padded.length - places
    String.ofList (padded.toList.take whole) ++ "." ++ String.ofList (padded.toList.drop whole)
  else text ++ "".pushn '0' p.toNat

/-- The shortest text that reads back as a floating-point number, without an
exponent and without a fraction of zero. -/
def decimalText (x : Float) : String :=
  let bits := x.toBits.toNat
  let sign := if bits.testBit 63 then "-" else ""
  let exponent := bits / 2 ^ 52 % 2 ^ 11
  let fraction := bits % 2 ^ 52
  if exponent = 2047 then
    if fraction = 0 then sign ++ "inf" else "NaN"
  else if exponent = 0 ∧ fraction = 0 then sign ++ "0"
  else
    let m := if exponent = 0 then fraction else 2 ^ 52 + fraction
    let q : Int := (max exponent 1 : Nat) - 1075
    let (digits, p) := (Rounding.of m q (fraction == 0 && 1 < exponent)).shortest
    sign ++ positional digits p

/-! ## Tests -/

example : (Rounding.of 1 (-1) true).shortest = (5, -1) := by decide +kernel
example : (Rounding.of (2 ^ 52) (-52) true).shortest = (1, 0) := by decide +kernel
example : (Rounding.of 1 (-1074) false).shortest = (5, -324) := by decide +kernel
example : (Rounding.of 5404319552844595 (-54) false).shortest = (3, -1) := by decide +kernel
example : positional 25 (-8) = "0.00000025" := by decide +kernel
example : positional 5 (-1) = "0.5" := by decide +kernel
example : positional 1 21 = "1000000000000000000000" := by decide +kernel

end Postings
