import Postings.Index.Header
import Postings.Proofs.Bits.Fields

/-!
# The header of a term

The header of a docs region is read back wherever it is carried: the occurrences first, and
then the number of postings in as many bits as the occurrences leave to it.
-/

namespace Postings

open BitString

namespace ListHeader

/-! ## The universe of the sums -/

theorem sumsUniv_of_lt {occurrences : Nat} (h : occurrences + 1 < 2 ^ 64) :
    sumsUniv occurrences = occurrences + 1 :=
  Nat.mod_eq_of_lt h

theorem sumsUniv_le (occurrences : Nat) : sumsUniv occurrences ≤ occurrences + 1 :=
  Nat.mod_le _ _

/-- The universe of a 64-bit number of occurrences is past it, unless there is none. -/
theorem sumsUniv_eq_of_pos {occurrences : Nat} (hlt : occurrences < 2 ^ 64)
    (hpos : 0 < sumsUniv occurrences) : sumsUniv occurrences = occurrences + 1 := by
  refine sumsUniv_of_lt (Nat.lt_of_le_of_ne hlt fun hlast => ?_)
  rw [sumsUniv, hlast, Nat.mod_self] at hpos
  exact absurd hpos (Nat.lt_irrefl 0)

/-- A sum is not below the universe of a 64-bit number of occurrences when it passes that
number, or when that number leaves no universe. -/
theorem sumsUniv_le_iff {occurrences sum : Nat} (hlt : occurrences < 2 ^ 64) :
    sumsUniv occurrences ≤ sum ↔ occurrences < sum ∨ occurrences = 2 ^ 64 - 1 := by
  by_cases hlast : occurrences = 2 ^ 64 - 1
  · have hnone : sumsUniv occurrences = 0 := by
      rw [hlast]
      rfl
    rw [hnone]
    exact iff_of_true (Nat.zero_le _) (.inr hlast)
  · rw [sumsUniv_of_lt (by omega), or_iff_left hlast]
    exact Nat.succ_le_iff

/-! ## Headers -/

/-- A header that a list can have. -/
structure Valid (header : ListHeader) : Prop where
  pos : 0 < header.size
  size_le : header.size ≤ header.occurrences
  occurrences_lt : header.occurrences < 2 ^ 32

theorem Valid.size_lt {header : ListHeader} (h : header.Valid) : header.size < 2 ^ 32 :=
  Nat.lt_of_le_of_lt h.size_le h.occurrences_lt

theorem runFrom_read {header : ListHeader} (h : header.Valid) {v : BitString} {pos : Nat}
    (hcarries : v.Carries pos header.bits 0) :
    (read v).runFrom pos = (.ok header, pos + header.bits.size) := by
  obtain ⟨hpos, hle, hlt⟩ := h
  have hgrown : header.bits.Extends (BitString.empty.appendGammaPositive header.occurrences) := by
    rw [bits]
    split
    · exact appendBits_extends _ _ _
    · exact .refl _
  have hfirst := runFrom_gammaPositive (w := .empty) (hcarries.mono hgrown) (by omega) (by omega)
  have hconsistent : (ListHeader.mk header.occurrences header.size).isConsistent = true := by
    rw [isConsistent, decide_eq_true hpos, decide_eq_true hle]
    rfl
  rw [read, Attempt.runFrom_bind, hfirst]
  simp only [size_empty, Nat.sub_zero]
  by_cases hmany : 1 < header.occurrences
  · have hbits : header.bits = (BitString.empty.appendGammaPositive header.occurrences).appendBits
        header.size (sizeBits header.occurrences) := by rw [bits, if_pos hmany]
    have hsizeBits : sizeBits header.occurrences = ceilLog2 (header.occurrences + 1) := by
      rw [sizeBits, sumsUniv_of_lt (by omega)]
    have hwidth : sizeBits header.occurrences ≤ 64 := by
      rw [hsizeBits]
      exact ceilLog2_le (by omega)
    have hbehind := hcarries.behind (Nat.zero_le _) hgrown
    have hfits : header.size < 2 ^ sizeBits header.occurrences := by
      rw [hsizeBits]
      exact Nat.lt_of_lt_of_le (Nat.lt_succ_of_le hle) (le_two_pow_ceilLog2 _)
    rw [hbits, Nat.sub_zero] at hbehind
    rw [if_pos hmany, Attempt.runFrom_bind, runFrom_take hbehind hwidth hfits]
    simp only [hconsistent, if_true]
    rw [Attempt.runFrom_pure, hbits, size_appendBits, Nat.min_eq_left hwidth, Nat.add_assoc]
  · have hbits : header.bits = BitString.empty.appendGammaPositive header.occurrences := by
      rw [bits, if_neg hmany]
    have hone : header.size = 1 := by omega
    rw [hone] at hconsistent
    rw [if_neg hmany, Attempt.runFrom_bind, Attempt.runFrom_pure]
    simp only [hconsistent, if_true]
    rw [Attempt.runFrom_pure, ← hbits, ← hone]

end ListHeader

end Postings
