import Postings.Bits.Basic

/-!
# Writing, seen as lists

Every way of writing bits is an operation on the list of bits: what is appended
comes after the list, least significant bit first, and what is overwritten takes
the place of as many bits.
-/

namespace Postings
namespace BitString

/-! ## Appending -/

theorem toList_appendZeros (v : BitString) (count : Nat) :
    (v.appendZeros count).toList = v.toList ++ List.replicate count false := by
  apply List.ext_getElem?
  intro i
  rw [toList_getElem?, List.getElem?_append, toList_getElem?, List.getElem?_replicate,
    bit_appendZeros, size_appendZeros, length_toList]
  by_cases h1 : i < v.size
  · simp [h1, show i < v.size + count by omega]
  · by_cases h2 : i < v.size + count
    · simp [h1, h2, show i - v.size < count by omega,
        bit_eq_false_of_size_le v (Nat.le_of_not_lt h1)]
    · simp [h1, h2, show ¬ i - v.size < count by omega]

theorem toList_padTo (v : BitString) (alignment : Nat) :
    (v.padTo alignment).toList =
      v.toList ++ List.replicate (padding v.size alignment) false :=
  toList_appendZeros v _

theorem toList_push (v : BitString) (b : Bool) : (v.push b).toList = v.toList ++ [b] := by
  rw [push, toList_appendBits v _ (by omega)]
  cases b <;> rfl

/-- Bytes are appended first byte first. -/
theorem toList_appendBytes (v : BitString) (bytes : List UInt8) :
    (v.appendBytes bytes).toList =
      v.toList ++ bytes.flatMap fun byte => lowFirst 8 byte.toNat := by
  rw [appendBytes]
  induction bytes generalizing v with
  | nil => simp
  | cons byte bytes ih =>
      rw [List.foldl_cons, ih, toList_appendBits v _ (by omega), List.flatMap_cons,
        List.append_assoc]

/-- The bits of a word are a piece of the list. -/
theorem lowFirst_wordAt (v : BitString) (w : Nat) :
    lowFirst (min 64 (v.size - 64 * w)) (wordAt v.words w) =
      (v.toList.drop (64 * w)).take 64 := by
  apply List.ext_getElem?
  intro i
  rw [lowFirst_getElem?, List.getElem?_take, List.getElem?_drop, toList_getElem?]
  by_cases h1 : i < 64
  · by_cases h2 : 64 * w + i < v.size
    · rw [if_pos (by omega), if_pos h1, if_pos h2, testBit_wordAt v h1]
    · rw [if_neg (by omega), if_pos h1, if_neg h2]
  · rw [if_neg (by omega), if_neg h1]

/-- The first words of a bit string append the first bits of it. -/
theorem toList_foldl_words (v other : BitString) (count : Nat) :
    ((List.range count).foldl
      (fun v w => v.appendBits (wordAt other.words w) (min 64 (other.size - 64 * w))) v).toList =
      v.toList ++ other.toList.take (64 * count) := by
  induction count with
  | zero => simp
  | succ count ih =>
      rw [List.range_succ, List.foldl_append, List.foldl_cons, List.foldl_nil,
        toList_appendBits _ _ (by omega), ih, lowFirst_wordAt, List.append_assoc, ← List.take_add,
        Nat.mul_succ]

/-- Appending is concatenation. -/
theorem toList_append (v other : BitString) : (v ++ other).toList = v.toList ++ other.toList := by
  change (v.append other).toList = _
  rw [append, toList_foldl_words, List.take_of_length_le]
  rw [length_toList]
  omega

theorem append_assoc (a b c : BitString) : a ++ b ++ c = a ++ (b ++ c) := by
  rw [← toList_inj]
  simp only [toList_append, List.append_assoc]

/-! ## Overwriting -/

/-- A field within the bits takes the place of as many of them. -/
theorem toList_setBits (v : BitString) (pos value : Nat) {len : Nat} (hlen : len ≤ 64)
    (h : pos + len ≤ v.size) :
    (v.setBits pos value len).toList =
      v.toList.take pos ++ lowFirst len value ++ v.toList.drop (pos + len) := by
  have hwidth : v.fieldWidth pos len = len := by
    simp only [fieldWidth]
    omega
  apply List.ext_getElem?
  intro i
  rw [toList_getElem?, size_setBits, bit_setBits, hwidth, List.getElem?_append, List.length_append,
    List.length_take, length_toList, length_lowFirst, List.getElem?_append, List.length_take,
    length_toList, List.getElem?_take, toList_getElem?, lowFirst_getElem?, List.getElem?_drop,
    toList_getElem?, Nat.min_eq_left (by omega : pos ≤ v.size)]
  by_cases h1 : i < pos
  · simp [h1, show i < v.size by omega, show i < pos + len by omega, show ¬ pos ≤ i by omega]
  · by_cases h2 : i < pos + len
    · simp [h1, h2, show i < v.size by omega, show pos ≤ i by omega, show i - pos < len by omega]
    · simp [h2, show pos + len + (i - (pos + len)) = i by omega]

end BitString
end Postings
