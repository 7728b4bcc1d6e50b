import Postings.Bits.Regions
import Postings.Proofs.Bits.Carry

/-!
# Regions, found again

Whole bytes that were pushed one after another are found, each at the offset that
the ends tell, and every offset is a byte boundary.
-/

namespace Postings
namespace Regions

open BitString

/-- The collection is made up of the given regions. -/
structure Holds (r : Regions) (parts : List BitString) : Prop where
  size_eq : r.size = parts.length
  stop_eq : r.offset r.size = r.bits.size
  aligned : ∀ i, i ≤ parts.length → r.offset i % 8 = 0
  carries : ∀ {i part}, parts[i]? = some part → r.bits.Carries (r.offset i) part 0

theorem empty_holds : empty.Holds [] where
  size_eq := rfl
  stop_eq := rfl
  aligned i hi := by
    obtain rfl : i = 0 := Nat.le_zero.mp hi
    rfl
  carries hpart := by cases hpart

/-- Pushing leaves the offsets where they are. -/
theorem offset_push (r : Regions) (region : BitString) {i : Nat} (hi : i ≤ r.size) :
    (r.push region).offset i = r.offset i := by
  cases i with
  | zero => rfl
  | succ i =>
      have hlt : i < r.ends.size := hi
      rw [offset_succ, offset_succ, stop, stop, push]
      simp only
      rw [Array.getElem?_push_lt hlt, Array.getElem?_eq_getElem hlt]

theorem offset_push_size (r : Regions) (region : BitString) :
    (r.push region).offset (r.size + 1) = r.bits.size + region.size := by
  rw [offset_succ, stop, push, ← size_append]
  simp only [size, Array.getElem?_push_size, Option.getD_some]

/-- **A pushed region is found**, and so are those that were there. -/
theorem Holds.push {r : Regions} {parts : List BitString} (h : r.Holds parts) {region : BitString}
    (hregion : region.size % 8 = 0) : (r.push region).Holds (parts ++ [region]) where
  size_eq := by rw [size_push, h.size_eq, List.length_append, List.length_singleton]
  stop_eq := by
    rw [size_push, offset_push_size, ← size_append]
    rfl
  aligned i hi := by
    rw [List.length_append, List.length_singleton, ← h.size_eq] at hi
    have hlast := h.aligned r.size (Nat.le_of_eq h.size_eq)
    rcases Nat.lt_or_eq_of_le hi with hlt | rfl
    · rw [offset_push r region (Nat.le_of_lt_succ hlt)]
      exact h.aligned i (by rw [← h.size_eq]; omega)
    · rw [h.stop_eq] at hlast
      rw [offset_push_size]
      omega
  carries {i part} hpart := by
    rcases Nat.lt_or_ge i parts.length with hlt | hge
    · rw [List.getElem?_append_left hlt] at hpart
      have hthere := h.carries hpart
      have hfits := hthere.fits
      rw [offset_push r region (by rw [h.size_eq]; omega)]
      refine ⟨Nat.le_trans hfits (append_extends r.bits region).size_le, fun j hj => ?_⟩
      rw [← hthere.bit_eq j hj]
      exact (append_extends r.bits region).bit_eq _ (by omega)
    · rw [List.getElem?_append_right hge, List.getElem?_singleton] at hpart
      split at hpart
      · obtain rfl := Option.some.inj hpart
        obtain rfl : i = r.size := by rw [h.size_eq]; omega
        rw [offset_push r region (Nat.le_refl _), h.stop_eq]
        exact append_carries r.bits region
      · cases hpart

end Regions
end Postings
