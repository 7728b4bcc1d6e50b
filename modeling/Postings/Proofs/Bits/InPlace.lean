import Postings.Proofs.Bits.Carry

/-!
# Overwriting in place

Elias-Fano lays out its region first, as zeros, and then fills in its parts one
after the other.  A writer that stays within its part changes nothing elsewhere;
`ChangedWithin` says so, and a field that lies outside of the part reads as before.
-/

namespace Postings
namespace BitString

/-! ## One field -/

/-- A field that lies within the bits takes the bits of the number. -/
theorem bit_setBits_of_fits (v : BitString) (value : Nat) {pos len : Nat} (hlen : len ≤ 64)
    (hfits : pos + len ≤ v.size) (i : Nat) :
    (v.setBits pos value len).bit i =
      if pos ≤ i ∧ i < pos + len then value.testBit (i - pos) else v.bit i := by
  rw [bit_setBits, show v.fieldWidth pos len = len by simp only [fieldWidth]; omega]

/-- The field reads as the number. -/
theorem getBits_setBits (v : BitString) {pos value len : Nat} (hlen : len ≤ 64)
    (hfits : pos + len ≤ v.size) : (v.setBits pos value len).getBits pos len = value % 2 ^ len := by
  apply Nat.eq_of_testBit_eq
  intro j
  rw [testBit_getBits _ _ hlen, bit_setBits_of_fits v value hlen hfits, Nat.testBit_mod_two_pow]
  cases Nat.lt_or_ge j len with
  | inl hj => rw [if_pos (by omega), Nat.add_sub_cancel_left]
  | inr hj => simp [Nat.not_lt.mpr hj]

@[simp] theorem size_setBit (v : BitString) (pos : Nat) : (v.setBit pos).size = v.size := rfl

theorem bit_setBit (v : BitString) {pos : Nat} (hpos : pos < v.size) (i : Nat) :
    (v.setBit pos).bit i = (v.bit i || decide (i = pos)) := by
  rw [setBit, bit_setBits_of_fits v 1 (by omega) (by omega)]
  rcases Nat.lt_trichotomy i pos with h | rfl | h
  · rw [if_neg (by omega), decide_eq_false (by omega), Bool.or_false]
  · rw [if_pos (by omega), Nat.sub_self, decide_eq_true rfl, Bool.or_true]
    rfl
  · rw [if_neg (by omega), decide_eq_false (by omega), Bool.or_false]

/-! ## Parts -/

/-- `w` has the bits of `v` but for those from `start` up to `stop`. -/
structure ChangedWithin (w v : BitString) (start stop : Nat) : Prop where
  size_eq : w.size = v.size
  bit_eq : ∀ i, i < start ∨ stop ≤ i → w.bit i = v.bit i

namespace ChangedWithin

variable {u v w : BitString} {start stop : Nat}

theorem refl (v : BitString) (start stop : Nat) : v.ChangedWithin v start stop :=
  ⟨rfl, fun _ _ => rfl⟩

theorem trans (h : w.ChangedWithin v start stop) (h' : v.ChangedWithin u start stop) :
    w.ChangedWithin u start stop :=
  ⟨h.size_eq.trans h'.size_eq, fun i hi => (h.bit_eq i hi).trans (h'.bit_eq i hi)⟩

theorem mono (h : w.ChangedWithin v start stop) {start' stop' : Nat} (hstart : start' ≤ start)
    (hstop : stop ≤ stop') : w.ChangedWithin v start' stop' :=
  ⟨h.size_eq, fun i hi => h.bit_eq i (by omega)⟩

/-- A field outside of the part reads as before. -/
theorem getBits (h : w.ChangedWithin v start stop) {pos len : Nat} (hlen : len ≤ 64)
    (hout : pos + len ≤ start ∨ stop ≤ pos) : w.getBits pos len = v.getBits pos len := by
  apply Nat.eq_of_testBit_eq
  intro j
  rw [testBit_getBits _ _ hlen, testBit_getBits _ _ hlen]
  cases Nat.lt_or_ge j len with
  | inl hj => rw [h.bit_eq _ (by omega)]
  | inr hj => simp [Nat.not_lt.mpr hj]

/-- What changes behind the end of a string still extends it. -/
theorem still_extends (h : w.ChangedWithin v start stop) (hv : v.Extends u)
    (hstart : u.size ≤ start) : w.Extends u :=
  ⟨by rw [h.size_eq]; exact hv.size_le, fun i hi => by
    rw [h.bit_eq i (.inl (by omega)), hv.bit_eq i hi]⟩

end ChangedWithin

theorem setBits_changedWithin (v : BitString) (pos value len : Nat) :
    (v.setBits pos value len).ChangedWithin v pos (pos + len) where
  size_eq := rfl
  bit_eq i hi := by
    rw [bit_setBits, if_neg]
    simp only [fieldWidth]
    omega

theorem setBit_changedWithin (v : BitString) (pos : Nat) :
    (v.setBit pos).ChangedWithin v pos (pos + 1) :=
  setBits_changedWithin v pos 1 1

end BitString
end Postings
