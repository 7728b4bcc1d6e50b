import Postings.Bits.Universal
import Postings.Bits.View

/-!
# Bits that were written and bits that are read

A writer extends a bit string; a reader is given a bit string in which what was
written lies somewhere, at the place where it was written or, when it was built
on its own and appended later, at another one.  Two relations keep the two apart.
`Extends` says that a bit string begins with another, and every writer extends
what it is given.  `Carries` says that the bits of one string, from a position
on, are found in another one from some position on; it is all that a reader needs
to know of where its bits come from.
-/

namespace Postings
namespace BitString

/-! ## Extending -/

/-- `w` begins with the bits of `v`. -/
structure Extends (w v : BitString) : Prop where
  /-- Nothing was taken away. -/
  size_le : v.size ≤ w.size
  /-- Nothing was changed. -/
  bit_eq : ∀ i, i < v.size → w.bit i = v.bit i

namespace Extends

variable {u v w : BitString}

theorem refl (v : BitString) : v.Extends v :=
  ⟨Nat.le_refl _, fun _ _ => rfl⟩

theorem trans (h : w.Extends v) (h' : v.Extends u) : w.Extends u :=
  ⟨Nat.le_trans h'.size_le h.size_le, fun i hi => by
    rw [h.bit_eq i (Nat.lt_of_lt_of_le hi h'.size_le), h'.bit_eq i hi]⟩

/-- Overwriting bits that were added keeps those that were there. -/
theorem setBits (h : w.Extends v) {pos value len : Nat} (hpos : v.size ≤ pos) :
    (w.setBits pos value len).Extends v where
  size_le := h.size_le
  bit_eq i hi := by
    rw [bit_setBits, if_neg (by omega), h.bit_eq i hi]

end Extends

theorem appendZeros_extends (v : BitString) (count : Nat) : (v.appendZeros count).Extends v :=
  ⟨Nat.le_add_right _ _, fun i _ => bit_appendZeros v count i⟩

theorem padTo_extends (v : BitString) (alignment : Nat) : (v.padTo alignment).Extends v :=
  appendZeros_extends v _

theorem appendBits_extends (v : BitString) (value len : Nat) : (v.appendBits value len).Extends v :=
  (appendZeros_extends v _).setBits (Nat.le_refl _)

theorem appendBytes_extends (v : BitString) (bytes : List UInt8) :
    (v.appendBytes bytes).Extends v := by
  rw [appendBytes]
  induction bytes generalizing v with
  | nil => exact .refl v
  | cons byte bytes ih => exact (ih _).trans (appendBits_extends v _ _)

theorem appendGamma_extends (v : BitString) (n : Nat) : (v.appendGamma n).Extends v :=
  (appendBits_extends _ _ _).trans (appendBits_extends _ _ _)

theorem appendDelta_extends (v : BitString) (n : Nat) : (v.appendDelta n).Extends v :=
  (appendBits_extends _ _ _).trans (appendGamma_extends _ _)

theorem extends_of_toList {v w : BitString} {bits : List Bool} (h : w.toList = v.toList ++ bits) :
    w.Extends v := by
  have hsize : w.size = v.size + bits.length := by
    rw [← length_toList w, h, List.length_append, length_toList]
  refine ⟨by omega, fun i hi => ?_⟩
  have hget : w.toList[i]? = v.toList[i]? := by
    rw [h, List.getElem?_append_left (by rwa [length_toList])]
  rw [toList_getElem?, toList_getElem?, if_pos (by omega), if_pos hi] at hget
  exact Option.some.inj hget

theorem append_extends (v other : BitString) : (v ++ other).Extends v :=
  extends_of_toList (toList_append v other)

theorem size_append (v other : BitString) : (v ++ other).size = v.size + other.size := by
  rw [← length_toList, toList_append, List.length_append, length_toList, length_toList]

theorem bit_append_right (v other : BitString) (i : Nat) :
    (v ++ other).bit (v.size + i) = other.bit i := by
  by_cases hi : i < other.size
  · have hget : (v ++ other).toList[v.size + i]? = other.toList[i]? := by
      rw [toList_append, List.getElem?_append_right (by rw [length_toList]; omega), length_toList,
        Nat.add_sub_cancel_left]
    rw [toList_getElem?, toList_getElem?, if_pos (by rw [size_append]; omega), if_pos hi] at hget
    exact Option.some.inj hget
  · rw [bit_eq_false_of_size_le _ (by rw [size_append]; omega),
      bit_eq_false_of_size_le _ (by omega)]

/-! ## Carrying -/

/-- From `pos` on, `v` has the bits that `w` has from `start` on. -/
structure Carries (v : BitString) (pos : Nat) (w : BitString) (start : Nat) : Prop where
  /-- All of them are there. -/
  fits : pos + (w.size - start) ≤ v.size
  /-- They are the same. -/
  bit_eq : ∀ i, start + i < w.size → v.bit (pos + i) = w.bit (start + i)

namespace Carries

variable {u v w : BitString} {pos start : Nat}

/-- An extension carries what it extends. -/
theorem of_extends (h : v.Extends w) (hstart : start ≤ w.size) : v.Carries start w start :=
  ⟨by have := h.size_le; omega, fun i hi => h.bit_eq _ hi⟩

/-- What is carried of a string is carried of what it extends. -/
theorem mono (h : v.Carries pos w start) (hw : w.Extends u) : v.Carries pos u start :=
  ⟨by have := h.fits; have := hw.size_le; omega, fun i hi => by
    rw [h.bit_eq i (Nat.lt_of_lt_of_le hi hw.size_le), hw.bit_eq _ hi]⟩

/-- Later bits are carried at a later position. -/
theorem advance (h : v.Carries pos w start) (k : Nat) (hk : start + k ≤ w.size) :
    v.Carries (pos + k) w (start + k) :=
  ⟨by have := h.fits; omega, fun i hi => by
    rw [Nat.add_assoc, Nat.add_assoc, h.bit_eq _ (by omega)]⟩

/-- So they are behind a prefix. -/
theorem behind (h : v.Carries pos w start) {u : BitString} (hstart : start ≤ u.size)
    (hw : w.Extends u) : v.Carries (pos + (u.size - start)) w u.size := by
  have := h.advance (u.size - start) (by have := hw.size_le; omega)
  rwa [Nat.add_sub_cancel' hstart] at this

/-- Two readings of one string agree. -/
theorem trans (h : v.Carries pos w start) {p : Nat} (h' : w.Carries start u p)  :
    v.Carries pos u p where
  fits := by
    have := h.fits
    have := h'.fits
    omega
  bit_eq i hi := by
    have := h'.fits
    rw [h.bit_eq i (by omega), h'.bit_eq i hi]

theorem getBits (h : v.Carries pos w start) {k len : Nat} (hlen : len ≤ 64)
    (hk : start + k + len ≤ w.size) :
    v.getBits (pos + k) len = w.getBits (start + k) len := by
  apply Nat.eq_of_testBit_eq
  intro j
  rw [testBit_getBits _ _ hlen, testBit_getBits _ _ hlen]
  by_cases hj : j < len
  · rw [Nat.add_assoc, h.bit_eq _ (by omega), Nat.add_assoc]
  · simp [hj]

end Carries

/-- What is appended is carried behind what was there. -/
theorem append_carries (v other : BitString) : (v ++ other).Carries v.size other 0 where
  fits := by rw [size_append]; omega
  bit_eq i _ := by rw [bit_append_right, Nat.zero_add]

/-! ## Fields -/

/-- A field reads as the number that was written. -/
theorem getBits_appendBits (v : BitString) (value : Nat) {len : Nat} (hlen : len ≤ 64) :
    (v.appendBits value len).getBits v.size len = value % 2 ^ len := by
  apply Nat.eq_of_testBit_eq
  intro j
  rw [testBit_getBits _ _ hlen, bit_appendBits, Nat.testBit_mod_two_pow, Nat.min_eq_left hlen]
  by_cases hj : j < len
  · rw [if_pos (by omega), Nat.add_sub_cancel_left]
  · simp [hj]

/-- A field that was appended is read where it is carried. -/
theorem Carries.getBits_appendBits {v w : BitString} {pos value len : Nat}
    (h : v.Carries pos (w.appendBits value len) w.size) (hlen : len ≤ 64)
    (hvalue : value < 2 ^ len) :
    v.getBits pos len = value := by
  have := h.getBits (k := 0) hlen (by rw [size_appendBits]; omega)
  rw [Nat.add_zero, Nat.add_zero] at this
  rw [this, BitString.getBits_appendBits _ _ hlen, Nat.mod_eq_of_lt hvalue]

end BitString
end Postings
