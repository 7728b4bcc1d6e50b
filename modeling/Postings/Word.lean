import Postings.Power

/-!
# Numbers as words of bits

Arithmetic on the positions of bits.  A word is a number below `2 ^ 64`; bit `i`
of it has weight `2 ^ i`.  `ones` lists the set positions of a word in ascending
order, and everything a word is asked for — how many bits are set, which is the
first, the last, the `k`-th — is a question to that list.

`lowFirst` spells a number as a list of bits, least significant first, and
`ofLowFirst` reads it back; the two are inverse on numbers that fit the width.
-/

namespace Postings

/-! ## Logarithms and alignment -/

/-- The smallest `b` with `x ≤ 2 ^ b`. -/
def ceilLog2 (x : Nat) : Nat :=
  if x ≤ 1 then 0 else (x - 1).log2 + 1

/-- The word whose `len` lowest bits are set; all of them from 64 on. -/
def lowMask (len : Nat) : Nat :=
  2 ^ min len 64 - 1

/-- The number of digits of `x` in base `2 ^ width`; zero has one digit. -/
def digitCount (width x : Nat) : Nat :=
  if x = 0 then 1 else x.log2 / width + 1

/-- The first multiple of `alignment` at or above `n`. -/
def alignUp (n alignment : Nat) : Nat :=
  (n + (alignment - 1)) / alignment * alignment

/-- The distance from `n` to the first multiple of `alignment` at or above it. -/
def padding (n alignment : Nat) : Nat :=
  alignUp n alignment - n

theorem le_two_pow_ceilLog2 (x : Nat) : x ≤ 2 ^ ceilLog2 x := by
  rw [ceilLog2]
  split
  · rename_i h
    simpa using h
  · have := Nat.lt_log2_self (n := x - 1)
    omega

theorem two_pow_ceilLog2_lt {x : Nat} (h : 1 < x) : 2 ^ (ceilLog2 x - 1) < x := by
  rw [ceilLog2, if_neg (by omega), Nat.add_sub_cancel]
  have := Nat.log2_self_le (n := x - 1) (by omega)
  omega

theorem ceilLog2_pos {x : Nat} (h : 1 < x) : 0 < ceilLog2 x := by
  rw [ceilLog2, if_neg (by omega)]
  exact Nat.succ_pos _

theorem two_pow_ceilLog2_eq {x : Nat} (h : 1 < x) : 2 ^ ceilLog2 x = 2 * 2 ^ (ceilLog2 x - 1) := by
  rw [← Nat.pow_succ', Nat.succ_eq_add_one, Nat.sub_add_cancel (ceilLog2_pos h)]

/-- No fewer bits than enough. -/
theorem ceilLog2_le {x k : Nat} (h : x ≤ 2 ^ k) : ceilLog2 x ≤ k := by
  rw [ceilLog2]
  split
  · exact Nat.zero_le k
  · exact (Nat.log2_lt (by omega)).mpr (by omega)

/-! ## Set bits of a word -/

/-- The positions of the set bits of a word, ascending. -/
def ones (word : Nat) : List Nat :=
  (List.range 64).filter word.testBit

/-- The number of set bits of a word. -/
def popCount (word : Nat) : Nat :=
  (ones word).length

/-- The position of the `k`-th set bit of a word, counted from zero. -/
def selectInWord (word k : Nat) : Option Nat :=
  (ones word)[k]?

/-- The position of the last set bit of a word. -/
def lastOne (word : Nat) : Option Nat :=
  (ones word).getLast?

@[simp] theorem mem_ones {word i : Nat} : i ∈ ones word ↔ i < 64 ∧ word.testBit i := by
  simp [ones]

/-! ## Bits, least significant first -/

/-- The `len` lowest bits of a number, least significant first. -/
def lowFirst : (len x : Nat) → List Bool
  | 0, _ => []
  | len + 1, x => x.testBit 0 :: lowFirst len (x / 2)

/-- The number that a list of bits spells, least significant first. -/
def ofLowFirst : List Bool → Nat
  | [] => 0
  | b :: bits => b.toNat + 2 * ofLowFirst bits

@[simp] theorem length_lowFirst (len x : Nat) : (lowFirst len x).length = len := by
  induction len generalizing x with
  | zero => rfl
  | succ len ih => simp [lowFirst, ih]

theorem ofLowFirst_lowFirst (len x : Nat) : ofLowFirst (lowFirst len x) = x % 2 ^ len := by
  induction len generalizing x with
  | zero => simp [lowFirst, ofLowFirst, Nat.mod_one]
  | succ len ih =>
      rw [lowFirst, ofLowFirst, ih, Nat.pow_succ, Nat.mul_comm (2 ^ len) 2, Nat.mod_mul,
        Nat.testBit_zero]
      rcases Nat.mod_two_eq_zero_or_one x with h | h <;> simp [h]

theorem ofLowFirst_lt (bits : List Bool) : ofLowFirst bits < 2 ^ bits.length := by
  induction bits with
  | nil => simp [ofLowFirst]
  | cons b bits ih =>
      rw [ofLowFirst, List.length_cons, Nat.pow_succ]
      cases b <;> simp <;> omega

/-- Spelling back what a list spells gives the list. -/
theorem lowFirst_ofLowFirst (bits : List Bool) :
    lowFirst bits.length (ofLowFirst bits) = bits := by
  induction bits with
  | nil => rfl
  | cons b bits ih =>
      have hdiv : (b.toNat + 2 * ofLowFirst bits) / 2 = ofLowFirst bits := by
        have := b.toNat_lt
        omega
      have hbit : (b.toNat + 2 * ofLowFirst bits).testBit 0 = b := by
        cases b <;> simp [Nat.add_mod]
      rw [List.length_cons, lowFirst, ofLowFirst, hdiv, hbit, ih]

/-- Bit `i` of the spelling is bit `i` of the number. -/
theorem lowFirst_getElem? (len x i : Nat) :
    (lowFirst len x)[i]? = if i < len then some (x.testBit i) else none := by
  induction len generalizing x i with
  | zero => simp [lowFirst]
  | succ len ih =>
      cases i with
      | zero => simp [lowFirst]
      | succ i => simp [lowFirst, ih, Nat.testBit_succ]

end Postings
