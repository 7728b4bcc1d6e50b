import Postings.Proofs.Bits.Carry
import Postings.Proofs.Bits.Rank
import Postings.Proofs.Sequence.Follows

/-!
# A set of marks in a range of bits

Both a bitmap and the high bits of Elias-Fano are a range of bits in which an
ascending list of positions is set.  The list tells all ranks within the range, and
so it tells what every scan finds there.
-/

namespace Postings
namespace BitString

/-- In the `len` bits from `start` on, the positions of `marks` are set and no others. -/
structure Marked (v : BitString) (start len : Nat) (marks : List Nat) : Prop where
  fits : start + len ≤ v.size
  increasing : marks.Pairwise (· < ·)
  below : ∀ m ∈ marks, m < len
  bit_iff : ∀ x, x < len → (v.bit (start + x) = true ↔ x ∈ marks)

theorem countP_lt_succ {marks : List Nat} (h : marks.Pairwise (· < ·)) (x : Nat) :
    marks.countP (· < x + 1) = marks.countP (· < x) + if x ∈ marks then 1 else 0 := by
  induction marks with
  | nil => rfl
  | cons m marks ih =>
      obtain ⟨hm, h⟩ := List.pairwise_cons.mp h
      rw [List.countP_cons, List.countP_cons, ih h]
      rcases Nat.lt_trichotomy m x with hlt | rfl | hgt
      · simp only [List.mem_cons, hlt, Nat.lt_succ_of_lt hlt, decide_true, if_true,
          show x ≠ m by omega, false_or]
        omega
      · have hnot : m ∉ marks := fun hmem => Nat.lt_irrefl m (hm m hmem)
        simp [hnot]
      · have hnot : x ∉ marks := fun hmem => by
          have := hm x hmem
          omega
        simp [hnot, show ¬ m < x by omega, show ¬ m < x + 1 by omega, show x ≠ m by omega]

/-- As many entries of an increasing list are below one of them as stand before it. -/
theorem countP_lt_getElem {marks : List Nat} (h : marks.Pairwise (· < ·)) {i : Nat}
    (hi : i < marks.length) : marks.countP (· < marks[i]) = i := by
  refine Plain.countP_eq (pairwise_le_of_lt h) (Nat.le_of_lt hi) (fun j hj hji => ?_)
    fun _ => Nat.le_refl _
  exact List.pairwise_iff_getElem.mp h j i hj hi hji

namespace Marked

variable {v : BitString} {start len : Nat} {marks : List Nat}

/-- The same bits elsewhere. -/
theorem carried {w : BitString} {pos : Nat} (h : w.Marked start len marks) {base k : Nat}
    (hc : v.Carries pos w base) (hstart : start = base + k) :
    v.Marked (pos + k) len marks where
  fits := by
    have := hc.fits
    have := h.fits
    omega
  increasing := h.increasing
  below := h.below
  bit_iff x hx := by
    have := h.fits
    rw [Nat.add_assoc, hc.bit_eq _ (by omega), ← h.bit_iff x hx, hstart, Nat.add_assoc]

/-! ## Ranks -/

theorem rank_true (h : v.Marked start len marks) {x : Nat} (hx : x ≤ len) :
    v.rank true (start + x) = v.rank true start + marks.countP (· < x) := by
  induction x with
  | zero => simp
  | succ x ih =>
      rw [← Nat.add_assoc, rank_succ, ih (by omega), countP_lt_succ h.increasing]
      by_cases hmem : x ∈ marks
      · rw [if_pos hmem, if_pos ((h.bit_iff x hx).mpr hmem), Nat.add_assoc]
      · rw [if_neg hmem, if_neg (fun hb => hmem ((h.bit_iff x hx).mp hb)), Nat.add_assoc]

theorem rank_false (h : v.Marked start len marks) {x : Nat} (hx : x ≤ len) :
    v.rank false (start + x) + marks.countP (· < x) = v.rank false start + x := by
  have hone := h.rank_true hx
  have hsum := v.rank_true_add_rank_false (start + x)
  have hstart := v.rank_true_add_rank_false start
  omega

theorem bit_mark (h : v.Marked start len marks) {i : Nat} (hi : i < marks.length) :
    v.bit (start + marks[i]) = true :=
  (h.bit_iff _ (h.below _ (List.getElem_mem hi))).mpr (List.getElem_mem hi)

theorem mark_lt (h : v.Marked start len marks) {i : Nat} (hi : i < marks.length) :
    start + marks[i] < v.size := by
  have := h.below _ (List.getElem_mem hi)
  have := h.fits
  omega

/-! ## Scans -/

/-- The marks are found by how many are passed over. -/
theorem selectOne (h : v.Marked start len marks) {x k : Nat} (hx : x ≤ len)
    (hi : marks.countP (· < x) + k < marks.length) :
    v.selectOne (start + x) k = some (start + marks[marks.countP (· < x) + k]) := by
  have hmark := h.below _ (List.getElem_mem hi)
  rw [selectOne_eq_some]
  refine ⟨?_, h.mark_lt hi, h.bit_mark hi, ?_⟩
  · have := (not_congr (Plain.getElem_lt_iff (pairwise_le_of_lt h.increasing) x hi)).mpr (by omega)
    omega
  · rw [h.rank_true (Nat.le_of_lt hmark), countP_lt_getElem h.increasing hi, h.rank_true hx,
      Nat.add_assoc]

theorem nextOne (h : v.Marked start len marks) {x : Nat} (hx : x ≤ len)
    (hi : marks.countP (· < x) < marks.length) :
    v.nextOne (start + x) = some (start + marks[marks.countP (· < x)]) :=
  h.selectOne hx (k := 0) hi

/-- The mark before a position is the last of those below it. -/
theorem prevOne (h : v.Marked start len marks) {x i : Nat} (hx : x ≤ len)
    (hcount : marks.countP (· < x) = i + 1) (hi : i < marks.length) :
    v.prevOne (start + x) = some (start + marks[i]) := by
  have hlt := (Plain.getElem_lt_iff (pairwise_le_of_lt h.increasing) x hi).mpr (by omega)
  rw [prevOne_eq_some]
  refine ⟨by omega, h.bit_mark hi, fun j hj hjx => ?_⟩
  obtain ⟨y, rfl⟩ := Nat.exists_eq_add_of_le (show start ≤ j by omega)
  rw [Bool.eq_false_iff]
  intro hb
  obtain ⟨m, hm, rfl⟩ := List.mem_iff_getElem.mp ((h.bit_iff y (by omega)).mp hb)
  have hbelow := (Plain.getElem_lt_iff (pairwise_le_of_lt h.increasing) x hm).mp (by omega)
  have hge : m ≤ i := by omega
  have := getElem_le_getElem (pairwise_le_of_lt h.increasing) hge hi
  omega

/-- An unset position is found by how many unset ones are passed over. -/
theorem selectZero (h : v.Marked start len marks) {x y : Nat} (hxy : x ≤ y) (hy : y < len)
    (hunset : y ∉ marks) {k : Nat}
    (hk : k + x + marks.countP (· < y) = y + marks.countP (· < x)) :
    v.selectZero (start + x) k = some (start + y) := by
  have := h.fits
  have hrx := h.rank_false (show x ≤ len by omega)
  have hry := h.rank_false (Nat.le_of_lt hy)
  rw [selectZero_eq_some]
  refine ⟨by omega, by omega, ?_, by omega⟩
  rw [Bool.eq_false_iff]
  exact fun hb => hunset ((h.bit_iff y hy).mp hb)

theorem countOnes (h : v.Marked start len marks) {x y : Nat} (hxy : x ≤ y) (hy : y ≤ len) :
    v.countOnes (start + x) (start + y) + marks.countP (· < x) = marks.countP (· < y) := by
  have hcount := v.countOnes_add_rank (show start + x ≤ start + y by omega)
  have hrx := h.rank_true (show x ≤ len by omega)
  have hry := h.rank_true hy
  omega

end Marked
end BitString
end Postings
