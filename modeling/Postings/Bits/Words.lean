import Postings.Power

/-!
# Bits in an array of words

Bit `64 * w + j` of an array of 64-bit words is bit `j` of word `w`.  Words past
the end of the array read as zero.  Bits are changed a word at a time, by a mask
that selects them; `testBit_wordAt_overwrite` tells what becomes of each bit.
-/

namespace Postings

/-- Word `w` of an array, zero where there is none. -/
def wordAt (words : Array UInt64) (w : Nat) : Nat :=
  (words[w]?.getD 0).toNat

theorem wordAt_lt (words : Array UInt64) (w : Nat) : wordAt words w < 2 ^ 64 :=
  UInt64.toNat_lt _

/-- A number has no bits from its width on. -/
theorem testBit_of_lt {x width i : Nat} (h : x < 2 ^ width) (hi : width ≤ i) :
    x.testBit i = false :=
  Nat.testBit_lt_two_pow (Nat.lt_of_lt_of_le h (Nat.pow_le_pow_right (by decide) hi))

theorem testBit_wordAt_of_le (words : Array UInt64) (w : Nat) {i : Nat} (hi : 64 ≤ i) :
    (wordAt words w).testBit i = false :=
  testBit_of_lt (wordAt_lt words w) hi

theorem wordAt_of_size_le {words : Array UInt64} {w : Nat} (h : words.size ≤ w) :
    wordAt words w = 0 := by
  simp [wordAt, Array.getElem?_eq_none h]

@[simp] theorem wordAt_append_zeros (words : Array UInt64) (k w : Nat) :
    wordAt (words ++ Array.replicate k 0) w = wordAt words w := by
  simp only [wordAt, Array.getElem?_append]
  split
  · rfl
  · rename_i h
    rw [Array.getElem?_eq_none (by omega : words.size ≤ w)]
    by_cases hw : w - words.size < k <;> simp [hw]

/-- Replaces the bits of `mask` in word `w` by those of `field`. -/
def overwrite (words : Array UInt64) (w mask field : Nat) : Array UInt64 :=
  words.modify w fun word => (word &&& ~~~mask.toUInt64) ||| field.toUInt64

@[simp] theorem size_overwrite (words : Array UInt64) (w mask field : Nat) :
    (overwrite words w mask field).size = words.size := by
  simp [overwrite]

theorem testBit_replaced (word : UInt64) (mask field : Nat) {j : Nat} (hj : j < 64) :
    ((word &&& ~~~mask.toUInt64) ||| field.toUInt64).toNat.testBit j =
      ((word.toNat.testBit j && !mask.testBit j) || field.testBit j) := by
  have hlow : ∀ x : Nat, x.toUInt64.toNat.testBit j = x.testBit j := by
    intro x
    rw [Nat.toUInt64, UInt64.toNat_ofNat', Nat.testBit_mod_two_pow]
    simp [hj]
  have hnot : (~~~mask.toUInt64).toNat.testBit j = !mask.testBit j := by
    rw [UInt64.toNat_not, show UInt64.size - 1 - mask.toUInt64.toNat =
      2 ^ 64 - (mask.toUInt64.toNat + 1) by simp only [UInt64.size]; omega,
      Nat.testBit_two_pow_sub_succ (UInt64.toNat_lt _), hlow]
    simp [hj]
  rw [UInt64.toNat_or, UInt64.toNat_and, Nat.testBit_or, Nat.testBit_and, hnot, hlow]

theorem testBit_wordAt_overwrite (words : Array UInt64) (w mask field k : Nat) {j : Nat}
    (hj : j < 64) :
    (wordAt (overwrite words w mask field) k).testBit j =
      if k = w ∧ w < words.size then
        ((wordAt words k).testBit j && !mask.testBit j) || field.testBit j
      else (wordAt words k).testBit j := by
  simp only [wordAt, overwrite, Array.getElem?_modify]
  by_cases hk : w = k
  · subst hk
    by_cases hw : w < words.size
    · simp only [hw, and_self, if_true, Array.getElem?_eq_getElem, Option.map_some,
        Option.getD_some]
      exact testBit_replaced _ _ _ hj
    · simp [hw]
  · simp [hk, Ne.symm hk]

end Postings
