import Postings.Codec.Base128

/-!
# Interpolative code

A run is written through its running sums `s₀ ≤ s₁ ≤ …`.  The last sum comes
first, unless the reader knows it; the others are written by bisection: the
middle sum lies between bounds that are already known, so it is written as one of
`high - low + 1` symbols, and then both halves within the narrowed bounds.  Equal
bounds leave one symbol, which costs nothing.

The symbols are in *truncated binary*.  Of `range` symbols the first
`2 ^ b - range` take `b - 1` bits and the others `b`, where `2 ^ b` is the first
power of two not below `range`.  Bits fill bytes from the lowest up, and a reader
takes a byte only when it needs a bit of it.
-/

namespace Postings

/-! ## Truncated binary -/

/-- The code word of symbol `x` of `range` symbols. -/
def truncatedBinary (x range : Nat) : List Bool :=
  if range ≤ 1 then []
  else
    let width := ceilLog2 range
    let short := 2 ^ width - range
    if x < short then lowFirst (width - 1) x
    else lowFirst (width - 1) (short + (x - short) / 2) ++ [(x - short) % 2 == 1]

/-- Packs bits into bytes; the last byte is filled up with zeros. -/
def packBits : List Bool → List UInt8
  | [] => []
  | b :: bits => (ofLowFirst (b :: bits.take 7)).toUInt8 :: packBits (bits.drop 7)
termination_by bits => bits.length
decreasing_by simp only [List.length_drop, List.length_cons]; omega

/-- What a bit reader reads from. -/
structure BitInput where
  /-- The bits that are left of the byte taken last. -/
  pending : List Bool
  /-- The number of bytes taken so far. -/
  taken : Nat
  /-- The bytes that follow. -/
  rest : List UInt8

/-- An input of which nothing has been taken. -/
def BitInput.start (bytes : List UInt8) : BitInput := ⟨[], 0, bytes⟩

/-- Takes bytes until `len` bits are pending. -/
def BitInput.refill (len : Nat) (pending : List Bool) (taken : Nat) :
    List UInt8 → Except Error BitInput
  | [] =>
      if len ≤ pending.length then .ok ⟨pending, taken, []⟩
      else .error (.regionTooShort "interpolative" ((taken + 1) * 8) (taken * 8))
  | byte :: rest =>
      if len ≤ pending.length then .ok ⟨pending, taken, byte :: rest⟩
      else refill len (pending ++ lowFirst 8 byte.toNat) (taken + 1) rest

/-- The next `len` bits, as a number. -/
def nextBits (len : Nat) : Attempt BitInput Nat := do
  let input ← get
  let filled ← BitInput.refill len input.pending input.taken input.rest
  set { filled with pending := filled.pending.drop len }
  return ofLowFirst (filled.pending.take len)

/-- Reads a symbol of `range` symbols. -/
def nextTruncatedBinary (range : Nat) : Attempt BitInput Nat := do
  if range ≤ 1 then
    return 0
  else
    let width := ceilLog2 range
    let short := 2 ^ width - range
    let y ← nextBits (width - 1)
    if y < short then
      return y
    else
      return short + (2 * (y - short) + (← nextBits 1))

namespace Interpolative

/-! ## Bisection -/

/-- The bits of sums between two bounds, the middle one first. -/
def bisect (sums : List Nat) (low high : Nat) : List Bool :=
  if sums = [] ∨ low = high then []
  else
    let half := sums.length / 2
    let middle := sums[half]?.getD high
    truncatedBinary (middle - low) (high - low + 1) ++
      (bisect (sums.take half) low middle ++ bisect (sums.drop (half + 1)) middle high)
termination_by sums.length
decreasing_by
  all_goals
    rename_i h
    have : sums.length ≠ 0 := fun h0 => h (.inl (List.length_eq_zero_iff.mp h0))
    simp only [List.length_take, List.length_drop]
    omega

/-- Reads `n` sums between two bounds. -/
def unbisect (n low high : Nat) : Attempt BitInput (List Nat) := do
  if n = 0 then
    return []
  else if low = high then
    return List.replicate n low
  else
    let half := n / 2
    let middle := low + (← nextTruncatedBinary (high - low + 1))
    let left ← unbisect half low middle
    let right ← unbisect (n - half - 1) middle high
    return left ++ middle :: right
termination_by n
decreasing_by all_goals omega

/-! ## Runs -/

/-- The running sums of a run that starts at `sum`; none may pass 32 bits. -/
def runningSums (sum : Nat) : List Nat → Except Error (List Nat)
  | [] => return []
  | x :: xs =>
      if 2 ^ 32 ≤ sum + x then throw (.codecOverflow "interpolative" (sum + x))
      else do return (sum + x) :: (← runningSums (sum + x) xs)

/-- The values whose running sums from `sum` are given. -/
def differences (sum : Nat) : List Nat → List Nat
  | [] => []
  | s :: sums => (s - sum) :: differences s sums

/-- The refusal of a hint that is not the sum of the run. -/
def hintMismatch (hint sum : Nat) : Error :=
  .invalidArgument "sum_hint" s!"hint {hint} does not match the run sum {sum}"

/-- Writes a run.  A reader that knows the sum of the run gives it as a hint, and
then it is not written. -/
def encode (values : List Nat) (hint : Option Nat) : Except Error (List UInt8) := do
  if values.isEmpty then
    return []
  let sums ← runningSums 0 values
  let sum := sums.getLastD 0
  let head ← match hint with
    | some hint =>
        if hint = sum then pure []
        else throw (hintMismatch hint sum)
    | none => pure (Base128.terminated.encodeOne sum)
  return head ++ packBits (bisect sums.dropLast 0 sum)

/-- Reads `n` values; answers with them and with the number of bytes read. -/
def decode (bytes : List UInt8) (n : Nat) (hint : Option Nat) : Except Error (List Nat × Nat) := do
  if n = 0 then
    return ([], 0)
  let (sum, input) ← match hint with
    | some hint => pure (hint, ByteInput.start bytes)
    | none =>
        match Attempt.runFrom Base128.terminated.decodeOne (.start bytes) with
        | (.ok sum, input) => pure (sum, input)
        | (.error e, _) => throw e
  match Attempt.runFrom (unbisect (n - 1) 0 sum) (.start input.rest) with
  | (.ok sums, bits) => return (differences 0 (sums ++ [sum]), input.taken + bits.taken)
  | (.error e, _) => throw e

end Interpolative
end Postings
