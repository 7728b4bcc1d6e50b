import Mathlib.Algebra.Order.BigOperators.Group.List
import Mathlib.Algebra.Order.Ring.Nat
import Postings.Index.PostingList
import Postings.Proofs.Sequence.Follows

/-!
# Lists that are fit for a collection

What the check of a posting list accepts, in words of its docids and frequencies.  In
such a list every posting is an occurrence at least.  Docids and frequencies have 32 bits,
so a list has no more occurrences than 64 bits can count.
-/

namespace Postings
namespace PostingList

theorem noZero_iff {freqs : List Nat} :
    freqs.findIdx? (· == 0) = none ↔ ∀ f ∈ freqs, 0 < f := by
  simp only [List.findIdx?_eq_none_iff, beq_eq_false_iff_ne, Nat.pos_iff_ne_zero]

/-- What makes a list fit for a collection. -/
theorem validate_eq_ok {list : PostingList} {numDocs : Nat} :
    list.validate numDocs = .ok () ↔
      list.docs ≠ [] ∧ list.docs.length = list.freqs.length ∧ list.docs.Pairwise (· < ·) ∧
        (∀ d ∈ list.docs, d < numDocs) ∧ ∀ f ∈ list.freqs, 0 < f := by
  rw [validate]
  cases hlast : list.docs.getLast? with
  | none =>
      constructor
      · intro h
        cases h
      · intro h
        exact absurd (List.getLast?_eq_none_iff.mp hlast) h.1
  | some last =>
      have hne : list.docs ≠ [] := by
        intro hnil
        rw [hnil] at hlast
        cases hlast
      have heq : list.docs.getLast hne = last := by
        rw [List.getLast?_eq_some_getLast hne] at hlast
        exact Option.some.inj hlast
      by_cases hlength : list.docs.length = list.freqs.length
      · simp only [if_neg (not_not_intro hlength)]
        cases hadj : firstAdjacent (fun a b => decide (b ≤ a)) 0 list.docs with
        | some found =>
            constructor
            · intro h
              cases h
            · rintro ⟨-, -, h, -⟩
              rw [firstAdjacent_le_eq_none.mpr h] at hadj
              cases hadj
        | none =>
            have hincreasing := firstAdjacent_le_eq_none.mp hadj
            have hbelow := getLast_lt_iff (pairwise_le_of_lt hincreasing) hne numDocs
            rw [heq] at hbelow
            by_cases hle : numDocs ≤ last
            · simp only [if_pos hle]
              constructor
              · intro h
                cases h
              · rintro ⟨-, -, -, h, -⟩
                exact absurd hle (Nat.not_le.mpr (hbelow.mpr h))
            · simp only [if_neg hle]
              cases hzero : list.freqs.findIdx? (· == 0) with
              | some position =>
                  constructor
                  · intro h
                    cases h
                  · rintro ⟨-, -, -, -, h⟩
                    rw [noZero_iff.mpr h] at hzero
                    cases hzero
              | none =>
                  exact ⟨fun _ => ⟨hne, hlength, hincreasing, hbelow.mp (Nat.lt_of_not_le hle),
                    noZero_iff.mp hzero⟩, fun _ => rfl⟩
      · simp only [if_pos hlength]
        constructor
        · intro h
          cases h
        · rintro ⟨-, h, -⟩
          exact absurd h hlength

/-- Every posting is an occurrence. -/
theorem size_le_occurrences {list : PostingList} {numDocs : Nat}
    (h : list.validate numDocs = .ok ()) : list.size ≤ list.occurrences := by
  obtain ⟨-, hlength, -, -, hpositive⟩ := validate_eq_ok.mp h
  rw [size, hlength]
  exact List.length_le_sum_of_one_le _ hpositive

/-- The occurrences of 32-bit frequencies in 32-bit documents are counted in 64 bits. -/
theorem occurrences_lt {list : PostingList} {numDocs : Nat} (h : list.validate numDocs = .ok ())
    (hnumDocs : numDocs ≤ 2 ^ 32) (hsmall : ∀ freq ∈ list.freqs, freq < 2 ^ 32) :
    list.occurrences + 1 < 2 ^ 64 := by
  obtain ⟨-, hlength, hincreasing, hbelow, -⟩ := validate_eq_ok.mp h
  have hcount : list.freqs.length ≤ 2 ^ 32 :=
    hlength ▸ (length_le_of_increasing hincreasing hbelow).trans hnumDocs
  have hsum : list.freqs.sum ≤ list.freqs.length * (2 ^ 32 - 1) :=
    List.sum_le_card_nsmul _ _ fun freq hfreq => Nat.le_pred_of_lt (hsmall freq hfreq)
  have hproduct : list.freqs.length * (2 ^ 32 - 1) ≤ 2 ^ 32 * (2 ^ 32 - 1) :=
    Nat.mul_le_mul_right _ hcount
  rw [show list.occurrences = list.freqs.sum from rfl]
  omega

end PostingList
end Postings
