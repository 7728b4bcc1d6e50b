import Mathlib.Algebra.GroupWithZero.Nat
import Mathlib.Data.List.Chain
import Postings.Proofs.Bits.Fields
import Postings.Sequence.Plain
import Postings.Sequence.Monotone

/-!
# Cursors that follow a list

A cursor over a stored sequence is right when it cannot be told from the cursor
over the plain list.  It *follows* the plain cursor when every finite run of moves
that are allowed there succeeds and ends at a cursor that shows the same size,
position, value and previous value.

To show that a cursor follows, find a relation that implies equal answers and that
one move preserves (`Follows.of_invariant`).  To use a cursor that follows, as the
partitioned cursor uses the one of its open partition, take it a move at a time
(`Follows.perform`); after each move it still follows.
-/

namespace Postings

/-! ## Moves -/

/-- One move of a cursor. -/
inductive Move where
  | moveTo (position : Nat)
  | next
  | nextGeq (bound : Nat)

namespace Move

/-- A cursor is moved to positions of its list or past its end, and not on from there. -/
def Allowed (p : Plain) : Move → Prop
  | .moveTo position => position ≤ p.values.length
  | .next => p.position < p.values.length
  | .nextGeq _ => True

/-- The plain cursor after a move. -/
def apply (p : Plain) : Move → Plain
  | .moveTo position => { p with position }
  | .next => { p with position := p.position + 1 }
  | .nextGeq bound => p.nextGeq bound

/-- Each of the moves is allowed where the ones before it lead. -/
def AllAllowed (p : Plain) : List Move → Prop
  | [] => True
  | m :: moves => m.Allowed p ∧ AllAllowed (m.apply p) moves

instance (p : Plain) : (m : Move) → Decidable (m.Allowed p)
  | .moveTo position => inferInstanceAs (Decidable (position ≤ p.values.length))
  | .next => inferInstanceAs (Decidable (p.position < p.values.length))
  | .nextGeq _ => inferInstanceAs (Decidable True)

instance decidableAllAllowed : (p : Plain) → (moves : List Move) → Decidable (AllAllowed p moves)
  | _, [] => inferInstanceAs (Decidable True)
  | p, m :: moves =>
      have := decidableAllAllowed (m.apply p) moves
      inferInstanceAs (Decidable (m.Allowed p ∧ AllAllowed (m.apply p) moves))

end Move

namespace SequenceCursor

variable {γ : Type} [SequenceCursor γ]

/-- One move of a cursor. -/
def perform (c : γ) : Move → Except Failure γ
  | .moveTo position => moveTo c position
  | .next => next c
  | .nextGeq bound => nextGeq c bound

/-- Moves of a cursor, one after another. -/
def run (c : γ) : List Move → Except Failure γ
  | [] => .ok c
  | m :: moves => do run (← perform c m) moves

/-- Two cursors give the same answers. -/
structure Agrees (c : γ) (p : Plain) : Prop where
  size_eq : size c = p.values.length
  position_eq : position c = p.position
  value_eq : value c = p.value
  prevValue_eq : prevValue c = .ok p.prevValue

/-- Every allowed run of moves succeeds and leads to the same answers. -/
def Follows (c : γ) (p : Plain) : Prop :=
  ∀ moves, Move.AllAllowed p moves →
    ∃ c', run c moves = .ok c' ∧ Agrees c' (moves.foldl Move.apply p)

/-- What one allowed move keeps, an allowed run keeps. -/
theorem exists_run {r : γ → Plain → Prop}
    (hstep : ∀ c p m, r c p → m.Allowed p → ∃ c', perform c m = .ok c' ∧ r c' (m.apply p))
    {c : γ} {p : Plain} (h : r c p) {moves : List Move} (hmoves : Move.AllAllowed p moves) :
    ∃ c', run c moves = .ok c' ∧ r c' (moves.foldl Move.apply p) := by
  induction moves generalizing c p with
  | nil => exact ⟨c, rfl, h⟩
  | cons m moves ih =>
      obtain ⟨hm, hmoves⟩ := hmoves
      obtain ⟨c', hc', hr⟩ := hstep c p m h hm
      obtain ⟨last, hlast, hkept⟩ := ih hr hmoves
      refine ⟨last, ?_, hkept⟩
      rw [run, hc']
      exact hlast

namespace Follows

variable {c : γ} {p : Plain}

/-- A relation that implies equal answers and is preserved by every allowed move is
enough. -/
theorem of_invariant {r : γ → Plain → Prop} (hagrees : ∀ c p, r c p → Agrees c p)
    (hstep : ∀ c p m, r c p → m.Allowed p → ∃ c', perform c m = .ok c' ∧ r c' (m.apply p))
    (h : r c p) : Follows c p := by
  intro moves hmoves
  obtain ⟨c', hc', hr⟩ := exists_run hstep h hmoves
  exact ⟨c', hc', hagrees _ _ hr⟩

theorem agrees (h : Follows c p) : Agrees c p := by
  obtain ⟨c', hc', hagree⟩ := h [] trivial
  obtain rfl := Except.ok.inj hc'
  exact hagree

/-- An allowed move succeeds, and the cursor goes on to follow. -/
theorem perform (h : Follows c p) {m : Move} (hm : m.Allowed p) :
    ∃ c', SequenceCursor.perform c m = .ok c' ∧ Follows c' (m.apply p) := by
  cases hc : SequenceCursor.perform c m with
  | error e =>
      obtain ⟨c', hc', -⟩ := h [m] ⟨hm, trivial⟩
      rw [run, hc] at hc'
      cases hc'
  | ok c' =>
      refine ⟨c', rfl, fun moves hmoves => ?_⟩
      obtain ⟨last, hlast, hagree⟩ := h (m :: moves) ⟨hm, hmoves⟩
      rw [run, hc] at hlast
      exact ⟨last, hlast, hagree⟩

/-- A cursor that does what a cursor inside of it does follows as that one follows. -/
theorem map {δ : Type} [SequenceCursor δ] {f : γ → δ}
    (hperform : ∀ c m, SequenceCursor.perform (f c) m = f <$> SequenceCursor.perform c m)
    (hagrees : ∀ c p, Agrees c p → Agrees (f c) p) (h : Follows c p) : Follows (f c) p := by
  refine of_invariant (r := fun d p => ∃ c, d = f c ∧ Follows c p) ?_ ?_ ⟨c, rfl, h⟩
  · rintro _ p ⟨c, rfl, h⟩
    exact hagrees c p h.agrees
  · rintro _ p m ⟨c, rfl, h⟩ hm
    obtain ⟨c', hc', hfollows⟩ := h.perform hm
    refine ⟨f c', ?_, c', rfl, hfollows⟩
    rw [hperform, hc']
    rfl

theorem moveTo (h : Follows c p) {position : Nat} (hp : position ≤ p.values.length) :
    ∃ c', SequenceCursor.moveTo c position = .ok c' ∧ Follows c' { p with position } :=
  h.perform (m := .moveTo position) hp

theorem next (h : Follows c p) (hp : p.position < p.values.length) :
    ∃ c', SequenceCursor.next c = .ok c' ∧ Follows c' { p with position := p.position + 1 } :=
  h.perform (m := .next) hp

theorem nextGeq (h : Follows c p) (bound : Nat) :
    ∃ c', SequenceCursor.nextGeq c bound = .ok c' ∧ Follows c' (p.nextGeq bound) :=
  h.perform (m := .nextGeq bound) trivial

end Follows
end SequenceCursor

/-! ## The plain cursor -/

namespace Plain

theorem value_of_lt {p : Plain} (h : p.position < p.values.length) :
    p.value = p.values[p.position] := by
  rw [value, List.getElem?_eq_getElem h, Option.getD_some]

theorem value_of_le {p : Plain} (h : p.values.length ≤ p.position) : p.value = p.univ := by
  rw [value, List.getElem?_eq_none h, Option.getD_none]

theorem prevValue_of_pos {p : Plain} (hpos : 0 < p.position)
    (h : p.position - 1 < p.values.length) : p.prevValue = p.values[p.position - 1] := by
  rw [prevValue, if_neg (by omega), List.getElem?_eq_getElem h, Option.getD_some]

/-- A position with smaller values before it and none behind it is the one sought. -/
theorem countP_eq {values : List Nat} (hsorted : values.Pairwise (· ≤ ·)) {bound k : Nat}
    (hk : k ≤ values.length) (hbelow : ∀ i (hi : i < values.length), i < k → values[i] < bound)
    (habove : ∀ hi : k < values.length, bound ≤ values[k]) :
    values.countP (· < bound) = k := by
  have hle : values.countP (· < bound) ≤ values.length := List.countP_le_length
  rcases Nat.lt_trichotomy (values.countP (· < bound)) k with h | h | h
  · have hlt : values.countP (· < bound) < values.length := by omega
    have := (getElem_lt_iff hsorted bound hlt).mp (hbelow _ hlt h)
    omega
  · exact h
  · have hlt : k < values.length := by omega
    have := (getElem_lt_iff hsorted bound hlt).mpr h
    have := habove hlt
    omega

/-- Every value is below a bound from the universe on. -/
theorem countP_of_univ_le {values : List Nat} {univ bound : Nat} (h : ∀ v ∈ values, v < univ)
    (hbound : univ ≤ bound) : values.countP (· < bound) = values.length := by
  rw [List.countP_eq_length]
  intro v hv
  exact decide_eq_true (Nat.lt_of_lt_of_le (h v hv) hbound)

/-- What a bound finds in a list in order is the first value that is not below it. -/
theorem nextGeq_position {p : Plain} (hsorted : p.values.Pairwise (· ≤ ·)) (bound : Nat) :
    (p.nextGeq bound).position = p.values.findIdx (bound ≤ ·) := by
  refine countP_eq hsorted List.findIdx_le_length (fun i hi hlt => ?_) fun hi => ?_
  · have hbefore := List.not_of_lt_findIdx hlt
    exact Nat.not_le.mp (of_decide_eq_false hbefore)
  · exact of_decide_eq_true (List.findIdx_getElem (w := hi))

end Plain

/-! ## Lists that are stored -/

/-- A list that every format stores: some values below a universe of at most
`2 ^ 32`, strictly increasing. -/
structure Ascending (values : List Nat) (univ : Nat) : Prop where
  ne_nil : values ≠ []
  increasing : values.Pairwise (· < ·)
  below : ∀ v ∈ values, v < univ
  univ_le : univ ≤ 2 ^ 32

/-- A list that the formats of tables store: some values below a universe of at most
`2 ^ 32`, in order, and not too many of them. -/
structure NonDecreasing (values : List Nat) (univ : Nat) : Prop where
  ne_nil : values ≠ []
  sorted : values.Pairwise (· ≤ ·)
  below : ∀ v ∈ values, v < univ
  univ_le : univ ≤ 2 ^ 32
  length_le : values.length ≤ 2 ^ 32 + 1

theorem pairwise_le_of_lt {values : List Nat} (h : values.Pairwise (· < ·)) :
    values.Pairwise (· ≤ ·) :=
  h.imp fun h => Nat.le_of_lt h

theorem getElem_le_getElem {values : List Nat} (h : values.Pairwise (· ≤ ·)) {i j : Nat}
    (hij : i ≤ j) (hj : j < values.length) : values[i] ≤ values[j] := by
  rcases Nat.lt_or_eq_of_le hij with hlt | rfl
  · exact List.pairwise_iff_getElem.mp h i j (by omega) hj hlt
  · exact Nat.le_refl _

/-- An increasing list grows at least as fast as its positions. -/
theorem add_le_getElem {values : List Nat} (h : values.Pairwise (· < ·)) {i j : Nat} (hij : i ≤ j)
    (hj : j < values.length) : values[i] + (j - i) ≤ values[j] := by
  induction j with
  | zero =>
      obtain rfl : i = 0 := by omega
      omega
  | succ j ih =>
      rcases Nat.lt_or_ge i (j + 1) with hlt | hge
      · have hstep := List.pairwise_iff_getElem.mp h j (j + 1) (by omega) hj (by omega)
        have := ih (by omega) (by omega)
        omega
      · obtain rfl : i = j + 1 := by omega
        omega

theorem length_le_of_increasing {values : List Nat} {univ : Nat} (h : values.Pairwise (· < ·))
    (hbelow : ∀ v ∈ values, v < univ) : values.length ≤ univ := by
  rcases Nat.eq_zero_or_pos values.length with hzero | hpos
  · omega
  · have := add_le_getElem h (Nat.zero_le (values.length - 1)) (by omega)
    have := hbelow _ (List.getElem_mem (show values.length - 1 < values.length by omega))
    omega

theorem Ascending.length_le {values : List Nat} {univ : Nat} (h : Ascending values univ) :
    values.length ≤ univ :=
  length_le_of_increasing h.increasing h.below

theorem Ascending.length_pos {values : List Nat} {univ : Nat} (h : Ascending values univ) :
    0 < values.length :=
  List.length_pos_iff.mpr h.ne_nil

theorem Ascending.nonDecreasing {values : List Nat} {univ : Nat} (h : Ascending values univ) :
    NonDecreasing values univ where
  ne_nil := h.ne_nil
  sorted := pairwise_le_of_lt h.increasing
  below := h.below
  univ_le := h.univ_le
  length_le := by
    have := h.length_le
    have := h.univ_le
    omega

/-- No two neighbours are related when there is no first such pair. -/
theorem firstAdjacent_eq_none {r : Nat → Nat → Bool} {position : Nat} {values : List Nat} :
    firstAdjacent r position values = none ↔ values.IsChain fun a b => r a b = false := by
  induction values generalizing position with
  | nil => simp [firstAdjacent]
  | cons a values ih =>
      cases values with
      | nil => simp [firstAdjacent]
      | cons b values =>
          rw [firstAdjacent, List.isChain_cons_cons]
          cases hr : r a b with
          | true => simp
          | false => simp [ih]

theorem firstAdjacent_le_eq_none {position : Nat} {values : List Nat} :
    firstAdjacent (fun a b => decide (b ≤ a)) position values = none ↔
      values.Pairwise (· < ·) := by
  rw [firstAdjacent_eq_none, ← List.isChain_iff_pairwise]
  simp only [decide_eq_false_iff_not, Nat.not_le]

theorem firstAdjacent_lt_eq_none {position : Nat} {values : List Nat} :
    firstAdjacent (fun a b => decide (b < a)) position values = none ↔
      values.Pairwise (· ≤ ·) := by
  rw [firstAdjacent_eq_none, ← List.isChain_iff_pairwise]
  simp only [decide_eq_false_iff_not, Nat.not_lt]

theorem getLast_le_of_sorted {values : List Nat} (h : values.Pairwise (· ≤ ·))
    (hne : values ≠ []) : ∀ v ∈ values, v ≤ values.getLast hne := by
  intro v hv
  obtain ⟨i, hi, rfl⟩ := List.mem_iff_getElem.mp hv
  rw [List.getLast_eq_getElem]
  rcases Nat.lt_or_ge i (values.length - 1) with hlt | hge
  · exact List.pairwise_iff_getElem.mp h i _ hi (by omega) hlt
  · obtain rfl : i = values.length - 1 := by omega
    exact Nat.le_refl _

/-- So all of them are below what the last one is below. -/
theorem getLast_lt_iff {values : List Nat} (h : values.Pairwise (· ≤ ·)) (hne : values ≠ [])
    (bound : Nat) : values.getLast hne < bound ↔ ∀ v ∈ values, v < bound := by
  constructor
  · intro hlt v hv
    exact Nat.lt_of_le_of_lt (getLast_le_of_sorted h hne v hv) hlt
  · intro hall
    exact hall _ (List.getLast_mem hne)

theorem checkUniverse_eq_ok {univ : Nat} : checkUniverse univ = .ok () ↔ univ ≤ 2 ^ 32 := by
  rw [checkUniverse]
  by_cases h : maxUniverse < univ
  · rw [if_pos h]
    constructor
    · intro h'
      cases h'
    · intro h'
      exact absurd h (Nat.not_lt.mpr h')
  · rw [if_neg h]
    exact ⟨fun _ => Nat.le_of_not_lt h, fun _ => rfl⟩

/-- The check of a list accepts exactly the lists that are stored. -/
theorem checkMonotone_eq_ok {values : List Nat} {univ : Nat} :
    checkMonotone values univ = .ok () ↔ Ascending values univ := by
  rw [checkMonotone]
  cases hlast : values.getLast? with
  | none =>
      constructor
      · intro h
        cases h
      · intro h
        exact absurd (List.getLast?_eq_none_iff.mp hlast) h.ne_nil
  | some last =>
      have hne : values ≠ [] := by
        rintro rfl
        cases hlast
      have hmem : last ∈ values := List.mem_of_getLast? hlast
      have heq : values.getLast hne = last := by
        rw [List.getLast?_eq_some_getLast hne] at hlast
        exact Option.some.inj hlast
      refine check_bind_eq_ok.trans ?_
      rw [checkUniverse_eq_ok]
      cases hadj : firstAdjacent (fun a b => decide (b ≤ a)) 0 values with
      | some found =>
          constructor
          · rintro ⟨-, h⟩
            cases h
          · intro h
            rw [firstAdjacent_le_eq_none.mpr h.increasing] at hadj
            cases hadj
      | none =>
          have hinc := firstAdjacent_le_eq_none.mp hadj
          constructor
          · rintro ⟨hu, h⟩
            by_cases hle : univ ≤ last
            · simp only [if_pos hle] at h
              cases h
            · rw [← heq] at hle
              exact ⟨hne, hinc, (getLast_lt_iff (pairwise_le_of_lt hinc) hne univ).mp
                (Nat.lt_of_not_le hle), hu⟩
          · intro h
            have := h.below last hmem
            refine ⟨h.univ_le, ?_⟩
            simp only [if_neg (Nat.not_le.mpr this)]
            rfl

end Postings
