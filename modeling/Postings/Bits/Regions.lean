import Postings.Bits.Stored

/-!
# Many regions in one bit string

Regions that were written on their own are kept back to back in one bit string,
with the position where each of them ends.  Region `i` begins where region
`i - 1` ends, so only the ends are stored.
-/

namespace Postings

/-- Bit regions stored back to back. -/
structure Regions where
  /-- The bits of all regions. -/
  bits : BitString
  /-- Where each region ends. -/
  ends : Array Nat
  deriving DecidableEq

namespace Regions

/-- No region at all. -/
def empty : Regions := ⟨.empty, #[]⟩

/-- The number of regions. -/
def size (r : Regions) : Nat := r.ends.size

/-- No region is there. -/
def isEmpty (r : Regions) : Bool := r.size == 0

/-- Where region `i` begins. -/
def offset (r : Regions) (i : Nat) : Nat :=
  if i = 0 then 0 else r.ends[i - 1]?.getD 0

/-- Where region `i` ends. -/
def stop (r : Regions) (i : Nat) : Nat :=
  r.ends[i]?.getD 0

/-- Adds a region at the end. -/
def push (r : Regions) (region : BitString) : Regions :=
  let bits := r.bits ++ region
  ⟨bits, r.ends.push bits.size⟩

@[simp] theorem size_empty : empty.size = 0 := rfl

@[simp] theorem size_push (r : Regions) (region : BitString) :
    (r.push region).size = r.size + 1 := by
  simp [size, push]

/-- A region begins where the one before it ends. -/
theorem offset_succ (r : Regions) (i : Nat) : r.offset (i + 1) = r.stop i := rfl

/-! ## On disk -/

/-- The stored form: the number of regions, their ends, and the bits. -/
def store (r : Regions) : List UInt8 :=
  leBytes 8 r.size ++ r.ends.toList.flatMap (leBytes 8) ++ r.bits.store

/-- The ends must not go down, and none may lie past the `size` bits that there
are. -/
def checkEnds (size : Nat) : (prev : Nat) → List Nat → Except Error Unit
  | _, [] => .ok ()
  | prev, stop :: stops =>
      if stop < prev ∨ size < stop then
        .error (.invalidFormat "collection endpoints"
          s!"endpoint {stop} outside [{prev}, {size}]")
      else checkEnds size stop stops

/-- Reads stored regions. -/
def load : Loading Regions := do
  let count ← loadU64 "collection size"
  let ends ← loadU64s "collection endpoints" count
  let bits ← BitString.load
  checkEnds bits.size 0 ends
  return ⟨bits, ends.toArray⟩

/-- Reads stored regions from the front of a list of bytes. -/
def ofStored (bytes : List UInt8) : Except Error Regions :=
  (Attempt.runFrom load bytes).1

end Regions
end Postings
