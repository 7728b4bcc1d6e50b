import Postings.Power
import Postings.Sample.Draws

/-!
# A seeded generator

The state is a 64-bit word that moves on by a fixed odd step, so it runs through
all words before it repeats.  A draw multiplies the state with a scrambled copy
of itself and folds the two halves of the product together.

A number below a bound is the high half of the product of a word and the bound.
Some high halves have one word more than others, so a word whose low half falls
short is drawn again; what is left is uniform.
-/

namespace Postings
namespace Wyrand

/-- The next 64-bit word. -/
def next64 (state : UInt64) : UInt64 × UInt64 :=
  let state := state + 0x2d358dccaa6c78a5
  let product := state.toNat * (state ^^^ 0x8bb84b93962eacc9).toNat
  (product.toUInt64 ^^^ (product / 2 ^ 64).toUInt64, state)

/-- The next word of `width ≤ 64` bits. -/
def nextWord (width : Nat) (state : UInt64) : Nat × UInt64 :=
  let (word, state) := next64 state
  (word.toNat % 2 ^ width, state)

/-- Draws words until the low half of the product with the bound is at least
`least`, or the rounds are over; answers with the high half. -/
def redraw (width bound least : Nat) : (rounds : Nat) → UInt64 → Nat × UInt64
  | 0, state => (0, state)
  | rounds + 1, state =>
      let (word, state) := nextWord width state
      if word * bound % 2 ^ width < least then redraw width bound least rounds state
      else (word * bound / 2 ^ width, state)

/-- After so many rounds the states repeat, so more would be of no use. -/
def rounds : Nat := 2 ^ 64

/-- A number below a bound. -/
def below (width bound : Nat) (state : UInt64) : Nat × UInt64 :=
  redraw width bound ((2 ^ width - bound) % bound) rounds state

theorem redraw_lt {width bound : Nat} (least rounds : Nat) (state : UInt64) (h : 0 < bound) :
    (redraw width bound least rounds state).1 < bound := by
  induction rounds generalizing state with
  | zero => exact h
  | succ rounds ih =>
      simp only [redraw]
      split
      · exact ih _
      · apply Nat.div_lt_of_lt_mul
        apply Nat.mul_lt_mul_of_pos_right _ h
        exact Nat.mod_lt _ (Nat.two_pow_pos width)

/-- The generator as a source of random numbers. -/
def draws : Draws UInt64 where
  below := below
  byte := nextWord 8
  below_lt state h := redraw_lt _ _ state h

end Wyrand
end Postings
