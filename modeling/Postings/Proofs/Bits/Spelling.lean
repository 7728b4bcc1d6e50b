import Mathlib.Tactic.Conv
import Postings.Bits.Words
import Postings.Bytes
import Postings.Word

/-!
# Numbers and bytes, spelled as bits

A list of bits spells a number, least significant first; bytes spell the bits of one after
the other.  So the number that bytes spell lowest first is the number that their bits spell,
and to cut the bits is to divide the number.
-/

namespace Postings

/-! ## Bits of numbers -/

/-- The bits of a spelled number are those of the list. -/
theorem testBit_ofLowFirst (bits : List Bool) (i : Nat) :
    (ofLowFirst bits).testBit i = bits[i]?.getD false := by
  rcases Nat.lt_or_ge i bits.length with h | h
  · have hspelled := lowFirst_getElem? bits.length (ofLowFirst bits) i
    rw [lowFirst_ofLowFirst, if_pos h] at hspelled
    rw [hspelled, Option.getD_some]
  · rw [List.getElem?_eq_none h, Option.getD_none]
    exact testBit_of_lt (ofLowFirst_lt bits) h

/-- And the other way round, as long as the number fits. -/
theorem getD_lowFirst {len x : Nat} (h : x < 2 ^ len) (i : Nat) :
    (lowFirst len x)[i]?.getD false = x.testBit i := by
  rw [← testBit_ofLowFirst, ofLowFirst_lowFirst, Nat.mod_eq_of_lt h]

theorem ofLowFirst_append (low high : List Bool) :
    ofLowFirst (low ++ high) = ofLowFirst low + 2 ^ low.length * ofLowFirst high := by
  induction low with
  | nil => simp [ofLowFirst]
  | cons b low ih =>
      rw [List.cons_append, ofLowFirst, ofLowFirst, ih, List.length_cons, Nat.pow_succ,
        Nat.mul_add, Nat.mul_comm _ 2, Nat.mul_assoc, Nat.add_assoc]

theorem ofLowFirst_take {len : Nat} {bits : List Bool} (h : len ≤ bits.length) :
    ofLowFirst (bits.take len) = ofLowFirst bits % 2 ^ len := by
  have hlength : (bits.take len).length = len := by rw [List.length_take, Nat.min_eq_left h]
  have hlt := ofLowFirst_lt (bits.take len)
  conv_rhs => rw [← List.take_append_drop len bits, ofLowFirst_append]
  rw [hlength] at hlt ⊢
  rw [Nat.add_mul_mod_self_left, Nat.mod_eq_of_lt hlt]

theorem ofLowFirst_drop {len : Nat} {bits : List Bool} (h : len ≤ bits.length) :
    ofLowFirst (bits.drop len) = ofLowFirst bits / 2 ^ len := by
  have hlength : (bits.take len).length = len := by rw [List.length_take, Nat.min_eq_left h]
  have hlt := ofLowFirst_lt (bits.take len)
  conv_rhs => rw [← List.take_append_drop len bits, ofLowFirst_append]
  rw [hlength] at hlt ⊢
  rw [Nat.add_mul_div_left _ _ (Nat.two_pow_pos len), Nat.div_eq_of_lt hlt, Nat.zero_add]

/-! ## Bits of bytes -/

/-- The bits of bytes, first byte first. -/
def bitsOf (bytes : List UInt8) : List Bool :=
  bytes.flatMap fun byte => lowFirst 8 byte.toNat

@[simp] theorem length_bitsOf (bytes : List UInt8) : (bitsOf bytes).length = 8 * bytes.length := by
  induction bytes with
  | nil => rfl
  | cons byte bytes ih =>
      rw [bitsOf, List.flatMap_cons, List.length_append, length_lowFirst, ← bitsOf, ih,
        List.length_cons]
      omega

theorem bitsOf_append (bytes others : List UInt8) :
    bitsOf (bytes ++ others) = bitsOf bytes ++ bitsOf others := by
  rw [bitsOf, List.flatMap_append, ← bitsOf, ← bitsOf]

theorem bitsOf_cons (byte : UInt8) (bytes : List UInt8) :
    bitsOf (byte :: bytes) = lowFirst 8 byte.toNat ++ bitsOf bytes := rfl

theorem take_bitsOf (bytes : List UInt8) (k : Nat) :
    (bitsOf bytes).take (8 * k) = bitsOf (bytes.take k) := by
  rcases Nat.le_total k bytes.length with h | h
  · conv_lhs => rw [← List.take_append_drop k bytes, bitsOf_append]
    have hlength : (bitsOf (bytes.take k)).length = 8 * k := by
      rw [length_bitsOf, List.length_take, Nat.min_eq_left h]
    rw [List.take_append_of_le_length (Nat.le_of_eq hlength.symm),
      List.take_of_length_le (Nat.le_of_eq hlength)]
  · have hlength : (bitsOf bytes).length ≤ 8 * k := by
      rw [length_bitsOf]
      omega
    rw [List.take_of_length_le hlength, List.take_of_length_le h]

theorem drop_bitsOf (bytes : List UInt8) (k : Nat) :
    (bitsOf bytes).drop (8 * k) = bitsOf (bytes.drop k) := by
  induction k generalizing bytes with
  | zero => rfl
  | succ k ih =>
      cases bytes with
      | nil => simp [bitsOf]
      | cons byte bytes =>
          rw [bitsOf_cons, List.drop_succ_cons, ← ih, Nat.mul_succ, Nat.add_comm, ← List.drop_drop,
            List.drop_left' (length_lowFirst 8 _)]

/-- The number that bytes spell is the one that their bits spell. -/
theorem ofLowFirst_bitsOf (bytes : List UInt8) : ofLowFirst (bitsOf bytes) = ofLeBytes bytes := by
  induction bytes with
  | nil => rfl
  | cons byte bytes ih =>
      rw [bitsOf_cons, ofLowFirst_append, ofLowFirst_lowFirst, length_lowFirst, ih, ofLeBytes,
        Nat.mod_eq_of_lt byte.toNat_lt]

theorem lowFirst_ofLeBytes (bytes : List UInt8) :
    lowFirst (8 * bytes.length) (ofLeBytes bytes) = bitsOf bytes := by
  rw [← ofLowFirst_bitsOf, ← length_bitsOf, lowFirst_ofLowFirst]

theorem bitsOf_leBytes (x : Nat) {count : Nat} (h : x < 256 ^ count) :
    bitsOf (leBytes count x) = lowFirst (8 * count) x := by
  rw [← lowFirst_ofLeBytes, length_leBytes, ofLeBytes_leBytes, Nat.mod_eq_of_lt h]

/-- A bit of fields of one width is a bit of one of them. -/
theorem getElem?_flatMap_lowFirst {width : Nat} (hwidth : 0 < width) (fields : List Nat) (i : Nat) :
    (fields.flatMap (lowFirst width))[i]? =
      fields[i / width]?.map fun field => field.testBit (i % width) := by
  induction fields generalizing i with
  | nil => rfl
  | cons field fields ih =>
      rw [List.flatMap_cons, List.getElem?_append, length_lowFirst]
      rcases Nat.lt_or_ge i width with hi | hi
      · rw [if_pos hi, lowFirst_getElem?, if_pos hi, Nat.div_eq_of_lt hi, Nat.mod_eq_of_lt hi]
        rfl
      · obtain ⟨j, rfl⟩ := Nat.exists_eq_add_of_le hi
        rw [if_neg (by omega), Nat.add_sub_cancel_left, ih, Nat.add_div_left _ hwidth,
          Nat.add_mod_left, List.getElem?_cons_succ]

end Postings
