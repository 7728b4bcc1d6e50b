import Postings.Sequence.Format

/-!
# Walking a list in memory

The cursor over a list that is not stored at all.  It says what the operations of
a cursor are for: a cursor over a stored sequence answers as the one over the
plain list does.  In an ascending list the values below a bound come first, so
counting them finds the first value that is not below it.
-/

namespace Postings

/-- A cursor over a list. -/
structure Plain where
  /-- The values. -/
  values : List Nat
  /-- What is shown past the end. -/
  univ : Nat
  /-- The position in the list. -/
  position : Nat
  deriving DecidableEq, Repr

namespace Plain

variable (c : Plain)

/-- The value at the position; the universe past the end. -/
def value : Nat := c.values[c.position]?.getD c.univ

/-- Moves to the first value that is at least `bound`. -/
def nextGeq (bound : Nat) : Plain :=
  { c with position := c.values.countP (· < bound) }

/-- The value before the position; zero at the first position. -/
def prevValue : Nat :=
  if c.position = 0 then 0 else c.values[c.position - 1]?.getD c.univ

instance : SequenceCursor Plain where
  size c := c.values.length
  position := position
  value := value
  moveTo c position := .ok { c with position }
  next c := .ok { c with position := c.position + 1 }
  nextGeq c bound := .ok (c.nextGeq bound)
  prevValue c := .ok c.prevValue

/-- In an ascending list the values below a bound are those in front of the count
of them. -/
theorem getElem_lt_iff {values : List Nat} (h : values.Pairwise (· ≤ ·)) (bound : Nat) {i : Nat}
    (hi : i < values.length) : values[i] < bound ↔ i < values.countP (· < bound) := by
  induction values generalizing i with
  | nil => cases hi
  | cons v values ih =>
      obtain ⟨hv, h⟩ := List.pairwise_cons.mp h
      by_cases hb : v < bound
      · rw [List.countP_cons_of_pos (by simpa using hb)]
        cases i with
        | zero => simp [hb]
        | succ i => simp [ih h (by simpa using hi)]
      · have hzero : values.countP (· < bound) = 0 := by
          simp only [List.countP_eq_zero, decide_eq_true_eq]
          intro a ha
          have := hv a ha
          omega
        rw [List.countP_cons_of_neg (by simpa using hb), hzero]
        have hge : v ≤ (v :: values)[i] := by
          cases i with
          | zero => exact Nat.le_refl v
          | succ i => exact hv _ (List.getElem_mem _)
        omega

end Plain
end Postings
