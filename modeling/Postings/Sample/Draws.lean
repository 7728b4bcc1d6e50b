/-!
# Sources of random numbers

What is sampled depends on a source of random numbers only through two kinds of
draw: a number below a bound, and a byte.  A source must keep to the bound;
nothing else is asked of it, so what is said about samples holds for every
sequence of draws.
-/

namespace Postings

/-- A source of random numbers with states of type `σ`. -/
structure Draws (σ : Type) where
  /-- A number below a positive bound, made of words of `width` bits. -/
  below : (width bound : Nat) → StateM σ Nat
  /-- A byte. -/
  byte : StateM σ Nat
  /-- Numbers keep to their bound. -/
  below_lt : ∀ {width bound : Nat} (s : σ), 0 < bound → (below width bound s).1 < bound

namespace Draws

variable {σ : Type} (draws : Draws σ)

/-- A number from `low` to `high`, both included. -/
def between (width low high : Nat) : StateM σ Nat := do
  return low + (← draws.below width (high - low + 1))

/-- A coin: the byte drawn is even. -/
def coin : StateM σ Bool := do
  return (← draws.byte) % 2 == 0

theorem between_bounds {width low high : Nat} (h : low ≤ high) (s : σ) :
    low ≤ (draws.between width low high s).1 ∧ (draws.between width low high s).1 ≤ high := by
  have hlt : (draws.below width (high - low + 1) s).1 < high - low + 1 :=
    draws.below_lt s (Nat.succ_pos _)
  have heq : (draws.between width low high s).1
      = low + (draws.below width (high - low + 1) s).1 := rfl
  omega

end Draws
end Postings
