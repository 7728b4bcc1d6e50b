import Mathlib.Algebra.GroupWithZero.Nat
import Mathlib.Data.Nat.Log
import Postings.Codec.Base128
import Postings.Codec.Grouped

/-!
# Byte codes, read back

A decoding *takes* some bytes when, whatever follows them, it answers with a value
and has consumed exactly those bytes.  Blocks carry no length, so this is the form
in which a round trip is needed: the next block begins where this one ends.  What
two decodings take one after the other is taken by their sequence, and each of the
codes of whole bytes is built that way from single bytes.
-/

namespace Postings

/-! ## Taking bytes -/

/-- The decoding consumes exactly these bytes and answers with the value, whatever
follows. -/
def Takes {α : Type} (decoding : Decoding α) (bytes : List UInt8) (answer : α) : Prop :=
  ∀ taken rest, Attempt.runFrom decoding ⟨taken, bytes ++ rest⟩ =
    (.ok answer, ⟨taken + bytes.length, rest⟩)

namespace Takes

variable {α β : Type}

theorem pure (a : α) : Takes (Pure.pure a : Decoding α) [] a := by
  intro taken rest
  simp

/-- Decodings in sequence take their bytes in sequence. -/
theorem bind {x : Decoding α} {f : α → Decoding β} {s t : List UInt8} {a : α} {b : β}
    (hx : Takes x s a) (hf : Takes (f a) t b) : Takes (x >>= f) (s ++ t) b := by
  intro taken rest
  rw [Attempt.runFrom_bind, List.append_assoc, hx]
  simp only
  rw [hf, List.length_append, Nat.add_assoc]

/-- A last step that only changes the answer takes nothing. -/
theorem bind_pure {x : Decoding α} {bytes : List UInt8} {a : α} (hx : Takes x bytes a)
    (f : α → β) : Takes (x >>= fun a => Pure.pure (f a)) bytes (f a) := by
  have h := hx.bind (f := fun a => Pure.pure (f a)) (pure (f a))
  rwa [List.append_nil] at h

end Takes

theorem takes_nextByte (codec : String) (byte : UInt8) : Takes (nextByte codec) [byte] byte := by
  intro taken rest
  simp only [nextByte, Attempt.runFrom_bind, Attempt.runFrom_get, List.cons_append, List.nil_append,
    Attempt.runFrom_set, Attempt.runFrom_pure, List.length_singleton]

theorem takes_nextBytes (codec : String) (bytes : List UInt8) :
    Takes (nextBytes codec bytes.length) bytes bytes := by
  intro taken rest
  simp only [nextBytes, Attempt.runFrom_bind, Attempt.runFrom_get, List.take_left, Nat.lt_irrefl,
    if_false, List.drop_left, Attempt.runFrom_set, Attempt.runFrom_pure]

/-- A decoding that takes every value of a list one by one takes the list. -/
theorem takes_decodeTimes {one : Decoding Nat} {code : Nat → List UInt8} {values : List Nat}
    (h : ∀ x ∈ values, Takes one (code x) x) :
    Takes (decodeTimes one values.length) (values.flatMap code) values := by
  induction values with
  | nil => exact .pure []
  | cons x values ih =>
      rw [List.length_cons, decodeTimes, List.flatMap_cons]
      exact (h x (.head _)).bind ((ih fun y hy => h y (.tail _ hy)).bind_pure (x :: ·))

/-! ## Seven bits a byte -/

namespace Base128

variable (form : Base128)

theorem toNat_byteOf (last : Bool) {digit : Nat} (h : digit < 128) :
    (form.byteOf last digit).toNat = if last == form.marksLast then digit + 128 else digit := by
  rw [byteOf, Nat.toUInt8, UInt8.toNat_ofNat']
  split <;> omega

theorem byteOf_mod (last : Bool) {digit : Nat} (h : digit < 128) :
    (form.byteOf last digit).toNat % 128 = digit := by
  rw [toNat_byteOf form last h]
  split <;> omega

theorem byteOf_flag (last : Bool) {digit : Nat} (h : digit < 128) :
    (decide ((form.byteOf last digit).toNat ≥ 128) == form.marksLast) = last := by
  rw [toNat_byteOf form last h]
  cases last <;> cases form.marksLast <;> simp <;> omega

/-- Digits are read back when there may be as many as the value has. -/
theorem takes_digits {left x : Nat} (h : x < 128 ^ (left + 1)) :
    Takes (form.digits (left + 1)) (form.encodeOne x) x := by
  induction left generalizing x with
  | zero =>
      have hx : x < 128 := by simpa using h
      rw [encodeOne, if_pos hx, digits]
      refine ((takes_nextByte _ _).bind (t := []) ?_)
      simp only [byteOf_flag form true hx, if_true, byteOf_mod form true hx]
      exact .pure x
  | succ left ih =>
      rw [encodeOne, digits]
      split
      · rename_i hx
        refine ((takes_nextByte _ _).bind (t := []) ?_)
        simp only [byteOf_flag form true hx, if_true, byteOf_mod form true hx]
        exact .pure x
      · have hdigit : x % 128 < 128 := Nat.mod_lt _ (by omega)
        have hrest : x / 128 < 128 ^ (left + 1) := by
          rw [Nat.div_lt_iff_lt_mul (by omega), ← Nat.pow_succ]
          exact h
        refine ((takes_nextByte _ _).bind (s := [_]) ?_)
        simp only [byteOf_flag form false hdigit, byteOf_mod form false hdigit]
        have := (ih hrest).bind_pure (fun digits => x % 128 + 128 * digits)
        rwa [Nat.mod_add_div] at this

/-- A value of 32 bits is read back. -/
theorem takes_decodeOne {x : Nat} (h : x < 2 ^ 32) :
    Takes form.decodeOne (form.encodeOne x) x := by
  rw [decodeOne]
  have hdigits : x < 128 ^ (4 + 1) := Nat.lt_of_lt_of_le h (by decide)
  have := (form.takes_digits hdigits).bind (t := [])
    (f := fun value => do
      if 2 ^ 32 ≤ value then
        throw (.invalidFormat form.valueName "value exceeds 32 bits")
      return value) (b := x) (by
        simp only [Nat.not_le.mpr h, if_false]
        exact .pure x)
  rwa [List.append_nil] at this

/-- A run of values of 32 bits is read back. -/
theorem takes_decode {values : List Nat} (h : ∀ x ∈ values, x < 2 ^ 32) :
    Takes (form.decode values.length) (form.encode values) values :=
  takes_decodeTimes fun x hx => form.takes_decodeOne (h x hx)

end Base128

/-! ## Values of one to four bytes -/

theorem lt_pow_digitCount {width : Nat} (hwidth : 0 < width) (x : Nat) :
    x < 2 ^ (width * digitCount width x) := by
  rw [digitCount]
  split
  · rename_i h
    subst h
    exact Nat.two_pow_pos _
  · refine Nat.lt_of_lt_of_le Nat.lt_log2_self (Nat.pow_le_pow_right (by omega) ?_)
    exact Nat.lt_mul_div_succ x.log2 hwidth

theorem digitCount_pos (width x : Nat) : 0 < digitCount width x := by
  rw [digitCount]
  split
  · exact Nat.one_pos
  · exact Nat.succ_pos _

theorem digitCount_le {width k x : Nat} (hk : 0 < k) (h : x < 2 ^ (width * k)) :
    digitCount width x ≤ k := by
  rw [digitCount]
  split
  · exact hk
  · rename_i hx
    exact Nat.succ_le_of_lt (Nat.div_lt_of_lt_mul ((Nat.log2_lt hx).mpr h))

theorem log2_mono {x y : Nat} (h : x ≤ y) : x.log2 ≤ y.log2 := by
  by_cases hx : x = 0
  · subst hx
    exact Nat.zero_le _
  · exact (Nat.le_log2 (by omega)).mpr ((Nat.log2_self_le hx).trans h)

/-- A larger number has no fewer digits. -/
theorem digitCount_mono (width : Nat) {x y : Nat} (h : x ≤ y) :
    digitCount width x ≤ digitCount width y := by
  rw [digitCount]
  split
  · exact digitCount_pos width y
  · rw [digitCount, if_neg (by omega)]
    exact Nat.succ_le_succ (Nat.div_le_div_right (log2_mono h))

theorem digitCount_le_four {x : Nat} (h : x < 2 ^ 32) : digitCount 8 x ≤ 4 :=
  digitCount_le (by decide) h

/-- The digits of a number are its lowest one and those of the rest. -/
theorem digitCount_div {width x : Nat} (hwidth : 0 < width) (h : 2 ^ width ≤ x) :
    digitCount width x = digitCount width (x / 2 ^ width) + 1 := by
  have hpos := Nat.two_pow_pos width
  have hrest : 0 < x / 2 ^ width := Nat.div_pos h hpos
  have hlog : x.log2 = (x / 2 ^ width).log2 + width := by
    obtain ⟨hlow, hhigh⟩ := (Nat.log2_eq_iff (Nat.ne_of_gt hrest)).mp rfl
    refine (Nat.log2_eq_iff (by omega)).mpr ⟨?_, ?_⟩
    · rw [Nat.pow_add]
      exact (Nat.le_div_iff_mul_le hpos).mp hlow
    · rw [Nat.add_right_comm, Nat.pow_add]
      exact (Nat.div_lt_iff_lt_mul hpos).mp hhigh
  rw [digitCount, if_neg (by omega), digitCount, if_neg (Nat.ne_of_gt hrest), hlog,
    Nat.add_div_right _ hwidth]

@[simp] theorem length_minimalBytes (x : Nat) : (minimalBytes x).length = digitCount 8 x :=
  length_leBytes _ _

theorem ofLeBytes_minimalBytes (x : Nat) : ofLeBytes (minimalBytes x) = x := by
  rw [minimalBytes, ofLeBytes_leBytes, Nat.mod_eq_of_lt]
  have := lt_pow_digitCount (show 0 < 8 by omega) x
  rwa [Nat.pow_mul] at this

/-- The lengths of at most four values fill at most a byte. -/
theorem lengthByte_lt {values : List Nat} (h : ∀ x ∈ values, x < 2 ^ 32) :
    lengthByte values < 4 ^ values.length := by
  induction values with
  | nil => simp [lengthByte]
  | cons x values ih =>
      have hx := digitCount_le_four (h x (.head _))
      have := ih fun y hy => h y (.tail _ hy)
      rw [lengthByte, List.length_cons, Nat.pow_succ]
      omega

/-- Values are read back by their lengths. -/
theorem takes_valuesOfLengths (codec : String) {values : List Nat}
    (h : ∀ x ∈ values, x < 2 ^ 32) :
    Takes (valuesOfLengths codec (lengthByte values) values.length)
      (values.flatMap minimalBytes) values := by
  induction values with
  | nil => exact .pure []
  | cons x values ih =>
      have hx := digitCount_le_four (h x (.head _))
      have hpos := digitCount_pos 8 x
      have hlow : lengthByte (x :: values) % 4 + 1 = (minimalBytes x).length := by
        rw [lengthByte, length_minimalBytes]
        omega
      have hhigh : lengthByte (x :: values) / 4 = lengthByte values := by
        rw [lengthByte]
        omega
      rw [List.length_cons, valuesOfLengths, List.flatMap_cons, hlow]
      refine (takes_nextBytes codec (minimalBytes x)).bind ?_
      rw [hhigh, ofLeBytes_minimalBytes]
      exact (ih fun y hy => h y (.tail _ hy)).bind_pure (x :: ·)

theorem toNat_lengthByte {values : List Nat} (h : ∀ x ∈ values, x < 2 ^ 32)
    (hlen : values.length ≤ 4) : (lengthByte values).toUInt8.toNat = lengthByte values := by
  rw [Nat.toUInt8, UInt8.toNat_ofNat', Nat.mod_eq_of_lt]
  calc lengthByte values < 4 ^ values.length := lengthByte_lt h
    _ ≤ 4 ^ 4 := Nat.pow_le_pow_right (by omega) hlen

/-- The first piece of a list is as long as it can be. -/
theorem length_cons_take (x : Nat) (xs : List Nat) (size : Nat) :
    (x :: xs.take size).length = min (x :: xs).length (size + 1) := by
  rw [List.length_cons, List.length_take, List.length_cons]
  omega

/-- What is left behind the first piece. -/
theorem length_drop_pred (x : Nat) (xs : List Nat) (size : Nat) :
    (xs.drop size).length = (x :: xs).length - (size + 1) := by
  rw [List.length_drop, List.length_cons]
  omega

theorem takes_groupVarint {values : List Nat} (h : ∀ x ∈ values, x < 2 ^ 32) :
    Takes (GroupVarint.decode values.length) (GroupVarint.encode values) values := by
  rw [GroupVarint.encode]
  fun_induction chunks 4 values with
  | case1 =>
      rw [GroupVarint.decode]
      exact .pure []
  | case2 x xs ih =>
      have hgroup : ∀ y ∈ x :: xs.take 3, y < 2 ^ 32 := fun y hy =>
        h y (List.cons_subset_cons x (List.take_subset 3 xs) hy)
      have hrest : ∀ y ∈ xs.drop 3, y < 2 ^ 32 := fun y hy =>
        h y (.tail _ (List.drop_subset 3 xs hy))
      have hlen : (x :: xs.take 3).length ≤ 4 := by
        rw [length_cons_take]
        omega
      rw [GroupVarint.decode, if_neg (by simp), List.flatMap_cons, ← length_cons_take x xs 3,
        ← length_drop_pred x xs 3]
      refine (takes_nextByte _ _).bind (s := [_]) ?_
      rw [toNat_lengthByte hgroup hlen]
      refine (takes_valuesOfLengths "varintgb" hgroup).bind ?_
      have := (ih hrest).bind_pure ((x :: xs.take 3) ++ ·)
      rwa [List.cons_append, List.take_append_drop] at this

/-- The length bytes of a run are as many as its groups of four. -/
theorem length_chunks_four (values : List Nat) :
    (chunks 4 values).length = (values.length + 3) / 4 := by
  fun_induction chunks 4 values with
  | case1 => rfl
  | case2 x xs ih =>
      rw [List.length_cons, ih, List.length_drop, List.length_cons]
      omega

theorem takes_decodeValues {values : List Nat} (h : ∀ x ∈ values, x < 2 ^ 32) :
    Takes (StreamVByte.decodeValues
        ((chunks 4 values).map fun group => (lengthByte group).toUInt8) values.length)
      (values.flatMap minimalBytes) values := by
  fun_induction chunks 4 values with
  | case1 => exact .pure []
  | case2 x xs ih =>
      have hgroup : ∀ y ∈ x :: xs.take 3, y < 2 ^ 32 := fun y hy =>
        h y (List.cons_subset_cons x (List.take_subset 3 xs) hy)
      have hrest : ∀ y ∈ xs.drop 3, y < 2 ^ 32 := fun y hy =>
        h y (.tail _ (List.drop_subset 3 xs hy))
      have hlen : (x :: xs.take 3).length ≤ 4 := by
        rw [length_cons_take]
        omega
      have hsplit : (x :: xs).flatMap minimalBytes =
          (x :: xs.take 3).flatMap minimalBytes ++ (xs.drop 3).flatMap minimalBytes := by
        rw [← List.flatMap_append, List.cons_append, List.take_append_drop]
      rw [List.map_cons, StreamVByte.decodeValues, toNat_lengthByte hgroup hlen,
        ← length_cons_take x xs 3, ← length_drop_pred x xs 3, hsplit]
      refine (takes_valuesOfLengths "streamvbyte" hgroup).bind ?_
      have := (ih hrest).bind_pure ((x :: xs.take 3) ++ ·)
      rwa [List.cons_append, List.take_append_drop] at this

theorem takes_streamVByte {values : List Nat} (h : ∀ x ∈ values, x < 2 ^ 32) :
    Takes (StreamVByte.decode values.length) (StreamVByte.encode values) values := by
  rw [StreamVByte.decode, StreamVByte.encode, ← length_chunks_four]
  have hlengths := takes_nextBytes "streamvbyte"
    ((chunks 4 values).map fun group => (lengthByte group).toUInt8)
  rw [List.length_map] at hlengths
  exact hlengths.bind (takes_decodeValues h)

end Postings
