import Postings.Bytes
import Postings.Word

/-!
# Bytes to decode

A decoder reads its input from the front and counts what it has taken, since the
size of a block is known only once it has been decoded, and since a missing byte
is reported by its position.  Bytes after the block are left alone.
-/

namespace Postings

/-- What a decoder reads from. -/
structure ByteInput where
  /-- The number of bytes taken so far. -/
  taken : Nat
  /-- The bytes that follow. -/
  rest : List UInt8

/-- An input of which nothing has been taken. -/
def ByteInput.start (bytes : List UInt8) : ByteInput := ⟨0, bytes⟩

/-- A computation that decodes from the front of its input. -/
abbrev Decoding (α : Type) := Attempt ByteInput α

/-- The refusal of an input that ends before `count` more bytes; sizes in bits. -/
def ByteInput.tooShort (input : ByteInput) (codec : String) (count : Nat) : Error :=
  .regionTooShort codec ((input.taken + count) * 8) ((input.taken + input.rest.length) * 8)

/-- The next byte. -/
def nextByte (codec : String) : Decoding UInt8 := do
  let input ← get
  match input.rest with
  | [] => throw (input.tooShort codec 1)
  | byte :: rest =>
      set (⟨input.taken + 1, rest⟩ : ByteInput)
      return byte

/-- The next `count` bytes. -/
def nextBytes (codec : String) (count : Nat) : Decoding (List UInt8) := do
  let input ← get
  let bytes := input.rest.take count
  if bytes.length < count then
    throw (input.tooShort codec count)
  set (⟨input.taken + count, input.rest.drop count⟩ : ByteInput)
  return bytes

/-- Decodes `n` values one after another. -/
def decodeTimes (one : Decoding Nat) : (n : Nat) → Decoding (List Nat)
  | 0 => return []
  | n + 1 => do
      let value ← one
      return value :: (← decodeTimes one n)

/-- Cuts a list into pieces of `size` elements; the last piece may be shorter. -/
def chunks {α : Type} (size : Nat) : List α → List (List α)
  | [] => []
  | x :: xs => (x :: xs.take (size - 1)) :: chunks size (xs.drop (size - 1))
termination_by xs => xs.length
decreasing_by simp only [List.length_drop, List.length_cons]; omega

@[simp] theorem chunks_nil {α : Type} (size : Nat) : chunks size ([] : List α) = [] := by
  rw [chunks]

/-- Putting the pieces together gives the list. -/
theorem flatten_chunks {α : Type} (size : Nat) (xs : List α) : (chunks size xs).flatten = xs := by
  fun_induction chunks size xs with
  | case1 => rfl
  | case2 x xs ih => rw [List.flatten_cons, ih, List.cons_append, List.take_append_drop]

/-- The bytes that a value needs, lowest first; zero needs one. -/
def minimalBytes (x : Nat) : List UInt8 :=
  leBytes (digitCount 8 x) x

end Postings
