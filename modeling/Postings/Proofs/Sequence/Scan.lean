import Postings.Proofs.Sequence.PrefixSums
import Postings.Sequence.Scan

/-!
# Scanning a sequence

A scan steps from the first position to the last, so over a cursor that follows a list
it answers with the list.  Of positive numbers the cursor follows the running sums, and
the scan answers with the numbers.
-/

namespace Postings

/-- The values from a position on, one after the other. -/
theorem take_drop_succ {values : List Nat} {p : Nat} (hp : p < values.length) (steps : Nat) :
    (values.drop p).take (steps + 1) = values[p] :: (values.drop (p + 1)).take steps := by
  rw [List.drop_eq_getElem_cons hp, List.take_succ_cons]

namespace SequenceCursor

variable {γ : Type} [SequenceCursor γ] {c : γ} {values : List Nat} {univ p : Nat}

/-- The values of the next positions. -/
theorem collect_eq {steps : Nat} (h : Follows c ⟨values, univ, p⟩)
    (hsteps : p + steps < values.length) :
    ∃ last, collect steps c = .ok ((values.drop p).take (steps + 1), last) := by
  have hvalue : ∀ {c : γ} {p : Nat}, Follows c ⟨values, univ, p⟩ → (hp : p < values.length) →
      value c = values[p] := fun h hp => h.agrees.value_eq.trans (Plain.value_of_lt hp)
  induction steps generalizing c p with
  | zero =>
      refine ⟨c, ?_⟩
      rw [Nat.add_zero] at hsteps
      rw [collect, hvalue h hsteps, take_drop_succ hsteps]
      rfl
  | succ steps ih =>
      have hp : p < values.length := by omega
      obtain ⟨c', hnext, hfollows⟩ := h.next hp
      obtain ⟨last, hrest⟩ := @ih c' (p + 1) hfollows (by omega)
      refine ⟨last, ?_⟩
      simp only [collect, hnext, hrest, bind, Except.bind, hvalue h hp, take_drop_succ hp]
      rfl

/-- **A scan answers with the list.** -/
theorem scan_eq (h : Follows c ⟨values, univ, p⟩) (hne : values ≠ []) :
    ∃ last, scan c (values.length - 1) = .ok (values, last) := by
  have hpos := List.length_pos_iff.mpr hne
  obtain ⟨first, hmove, hfollows⟩ := h.moveTo (Nat.zero_le _)
  obtain ⟨last, hcollect⟩ :=
    @collect_eq _ _ first values univ 0 (values.length - 1) hfollows (by omega)
  refine ⟨last, ?_⟩
  rw [scan, hmove]
  change collect (values.length - 1) first = _
  rw [hcollect, List.drop_zero, Nat.sub_add_cancel hpos, List.take_length]

end SequenceCursor

namespace PrefixSums.Cursor

open SequenceCursor

variable {format : Format} {c : Cursor format} {values sums : List Nat} {univ p : Nat}

/-- The numbers of the next positions. -/
theorem collect_eq {steps : Nat} (hsums : sumsOf 0 0 values = .ok sums)
    (h : Follows c.sums ⟨sums, univ, p⟩) (hsteps : p + steps < values.length) :
    ∃ last, c.collect steps = .ok ((values.drop (p + 1)).take steps, last) := by
  induction steps generalizing c p with
  | zero => exact ⟨c, by rw [collect, List.take_zero]; rfl⟩
  | succ steps ih =>
      have hp : p + 1 < values.length := by omega
      obtain ⟨c', hnext, hfollows⟩ := next_eq hsums h hp
      obtain ⟨last, hrest⟩ := @ih c' (p + 1) hfollows (by omega)
      refine ⟨last, ?_⟩
      simp only [collect, hnext, hrest, bind, Except.bind, take_drop_succ hp]
      rfl

/-- **A scan answers with the numbers.** -/
theorem scan_eq (hsums : sumsOf 0 0 values = .ok sums) (h : Follows c.sums ⟨sums, univ, p⟩)
    (hne : values ≠ []) : ∃ last, c.scan (values.length - 1) = .ok (values, last) := by
  have hpos := List.length_pos_iff.mpr hne
  obtain ⟨first, hmove, hfollows⟩ := moveTo_eq hsums h hpos
  obtain ⟨last, hcollect⟩ :=
    @collect_eq _ first _ _ _ _ (values.length - 1) hsums hfollows (by omega)
  refine ⟨last, ?_⟩
  simp only [scan, hmove, hcollect, bind, Except.bind]
  change Except.ok (values[0] :: (values.drop 1).take (values.length - 1), last) = _
  rw [← take_drop_succ hpos, List.drop_zero, Nat.sub_add_cancel hpos, List.take_length]

end PrefixSums.Cursor
end Postings
