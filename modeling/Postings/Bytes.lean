import Postings.Error
import Postings.Power

/-!
# Stored bytes

Persistent data is a list of bytes, numbers in it little endian.  A `Loading`
reads it from the front; its state is what has not been read yet, and running out
of bytes refuses with the name of the part that was being read.
-/

namespace Postings

/-! ## Little-endian numbers -/

/-- The `count` lowest bytes of a number, lowest first. -/
def leBytes : (count x : Nat) → List UInt8
  | 0, _ => []
  | count + 1, x => x.toUInt8 :: leBytes count (x / 256)

/-- The number that a list of bytes spells, lowest first. -/
def ofLeBytes : List UInt8 → Nat
  | [] => 0
  | byte :: bytes => byte.toNat + 256 * ofLeBytes bytes

@[simp] theorem length_leBytes (count x : Nat) : (leBytes count x).length = count := by
  induction count generalizing x with
  | zero => rfl
  | succ count ih => simp [leBytes, ih]

theorem ofLeBytes_leBytes (count x : Nat) : ofLeBytes (leBytes count x) = x % 256 ^ count := by
  induction count generalizing x with
  | zero => simp [leBytes, ofLeBytes, Nat.mod_one]
  | succ count ih =>
      rw [leBytes, ofLeBytes, ih, Nat.pow_succ, Nat.mul_comm (256 ^ count) 256, Nat.mod_mul]
      simp [Nat.toUInt8]

theorem ofLeBytes_lt (bytes : List UInt8) : ofLeBytes bytes < 256 ^ bytes.length := by
  induction bytes with
  | nil => simp [ofLeBytes]
  | cons byte bytes ih =>
      have := byte.toNat_lt
      rw [ofLeBytes, List.length_cons, Nat.pow_succ]
      omega

/-- Spelling back what bytes spell gives the bytes. -/
theorem leBytes_ofLeBytes (bytes : List UInt8) :
    leBytes bytes.length (ofLeBytes bytes) = bytes := by
  induction bytes with
  | nil => rfl
  | cons byte bytes ih =>
      have := byte.toNat_lt
      have hdiv : (byte.toNat + 256 * ofLeBytes bytes) / 256 = ofLeBytes bytes := by omega
      have hlow : (byte.toNat + 256 * ofLeBytes bytes).toUInt8 = byte := by
        apply UInt8.toNat_inj.mp
        rw [Nat.toUInt8, UInt8.toNat_ofNat']
        omega
      rw [List.length_cons, leBytes, ofLeBytes, hdiv, hlow, ih]

/-! ## Reading stored data -/

/-- A computation that reads stored bytes from the front. -/
abbrev Loading (α : Type) := Attempt (List UInt8) α

/-- The next `count` bytes; `context` names the part they belong to. -/
def loadBytes (context : String) (count : Nat) : Loading (List UInt8) := do
  let bytes ← get
  if bytes.length < count then
    throw (.io context "failed to fill whole buffer")
  set (bytes.drop count)
  return bytes.take count

/-- The next byte, as a number. -/
def loadU8 (context : String) : Loading Nat := do
  return ofLeBytes (← loadBytes context 1)

/-- The next 64-bit number. -/
def loadU64 (context : String) : Loading Nat := do
  return ofLeBytes (← loadBytes context 8)

/-- Cuts a list of bytes into 64-bit numbers. -/
def u64sOfBytes : (count : Nat) → List UInt8 → List Nat
  | 0, _ => []
  | count + 1, bytes => ofLeBytes (bytes.take 8) :: u64sOfBytes count (bytes.drop 8)

/-- The next `count` 64-bit numbers. -/
def loadU64s (context : String) (count : Nat) : Loading (List Nat) := do
  return u64sOfBytes count (← loadBytes context (8 * count))

end Postings
