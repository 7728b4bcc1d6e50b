import Mathlib.Data.Nat.Factorization.Basic
import Postings.Proofs.Bits.Rank
import Postings.Proofs.Codec.GroupUnary
import Postings.Proofs.Codec.Runs

/-!
# Decoders of bytes in numbers of fixed width

The decoders compute with natural numbers, which have no width.  Here they are carried out
in numbers of 8, 32 and 64 bits, one operation at a time and in the order of a decoder that
runs on a machine: a value is put together by shifts, the marks of a group are cleared from
the lowest up.

A checked decoder that agrees with a decoder goes without a fault and does the same
(`Checked.Agrees`).

The number of bytes taken is not an operand.  It never passes the number of bytes there are,
and what is in memory can be counted, in bits too.
-/

namespace Postings
namespace Checked

variable {σ : Type}

/-! ## Bytes of a number -/

/-- The number that up to four bytes spell, shifted in from the highest byte down. -/
def ofLeBytes : List UInt8 → Option Nat
  | [] => some 0
  | byte :: bytes => do
      let high ← shl 32 (← ofLeBytes bytes) 8
      return high ||| byte.toNat

theorem ofLeBytes_eq {bytes : List UInt8} (h : bytes.length ≤ 4) :
    ofLeBytes bytes = some (Postings.ofLeBytes bytes) := by
  induction bytes with
  | nil => rfl
  | cons byte bytes ih =>
      rw [List.length_cons] at h
      have hhigh : Postings.ofLeBytes bytes < 2 ^ 24 :=
        Nat.lt_of_lt_of_le (ofLeBytes_lt bytes)
          (Nat.pow_le_pow_right (show 0 < 256 by decide) (show bytes.length ≤ 3 by omega))
      rw [ofLeBytes, ih (by omega)]
      simp only [Option.bind_eq_bind, Option.bind_some, shl_eq hhigh (Nat.le_refl 32) (by decide)]
      rw [Nat.or_comm, or_above byte.toNat_lt]
      rfl

/-- A fifth byte would fault. -/
example : ofLeBytes [0, 0, 0, 0, 1] = none := by decide

/-! ## Seven bits a byte -/

/-- Reads `n` values one after another. -/
def decodeTimes (one : Checked σ Nat) : (n : Nat) → Checked σ (List Nat)
  | 0 => return []
  | n + 1 => do
      let value ← one
      return value :: (← decodeTimes one n)

theorem decodeTimes_agrees {checked : Checked ByteInput Nat} {one : Decoding Nat}
    (h : Agrees id checked one) (n : Nat) :
    Agrees id (decodeTimes checked n) (Postings.decodeTimes one n) := by
  induction n with
  | zero => exact .pure []
  | succ n ih =>
      exact h.bind (.any one) fun value _ => ih.bind (.any _) fun values _ => .pure _

section

variable (form : Base128)

/-- The digits of a value, of which those below bit `shift` are known. -/
def digits : (left shift value : Nat) → Checked ByteInput Nat
  | 0, _, _ => throw (.invalidFormat form.valueName "value longer than five bytes")
  | left + 1, shift, value => do
      let byte ← plain (nextByte form.inputName)
      let digit ← shl 64 (byte.toNat % 128) shift
      if (byte.toNat ≥ 128) == form.marksLast then
        return value ||| digit
      else
        digits left (← add 32 shift 7) (value ||| digit)

/-- Reads one value. -/
def decodeOne : Checked ByteInput Nat := do
  let value ← digits form 5 0 0
  if 2 ^ 32 ≤ value then
    throw (.invalidFormat form.valueName "value exceeds 32 bits")
  return value

/-- Digits are put above those that are known. -/
theorem digits_agrees {left shift value : Nat} (hvalue : value < 2 ^ shift)
    (h : shift + 7 * left < 64) :
    Agrees id (digits form left shift value)
      (do return value + 2 ^ shift * (← form.digits left)) := by
  induction left generalizing shift value with
  | zero => exact .throw _
  | succ left ih =>
      rw [digits, Base128.digits]
      simp only [bind_assoc]
      refine (Agrees.plain _).bind (.any _) fun byte _ => ?_
      have hdigit : byte.toNat % 128 < 2 ^ 7 := Nat.mod_lt _ (by decide)
      refine .after (shl_eq hdigit (show shift + 7 ≤ 64 by omega) (by decide)) ?_
      simp only [or_above hvalue]
      split
      · simp only [pure_bind]
        exact .pure _
      · have hsmall : shift + 7 < 2 ^ 32 := by omega
        refine .after (if_pos hsmall) ?_
        have hsame : ∀ rest, value + 2 ^ shift * (byte.toNat % 128 + 128 * rest) =
            value + 2 ^ shift * (byte.toNat % 128) + 2 ^ (shift + 7) * rest := by
          intro rest
          rw [Nat.mul_add, Nat.pow_add, Nat.mul_assoc, Nat.add_assoc]
        simpa only [bind_assoc, pure_bind, hsame] using ih (above_lt hvalue hdigit) (by omega)

theorem decodeOne_agrees : Agrees id (decodeOne form) form.decodeOne := by
  have hdigits := @digits_agrees form 5 0 0 (by decide) (by decide)
  simp only [Nat.zero_add, Nat.pow_zero, Nat.one_mul, bind_pure] at hdigits
  rw [decodeOne, Base128.decodeOne]
  refine hdigits.bind (.any _) fun value _ => ?_
  split
  · exact .throw_bind _ _ _
  · exact .pure value

end

/-! ## Values of one to four bytes -/

/-- Reads `n` values whose lengths begin at the `j`-th code of a byte. -/
def valuesOfLengths (codec : String) (lengths : Nat) : (j n : Nat) → Checked ByteInput (List Nat)
  | _, 0 => return []
  | j, n + 1 => do
      let code ← shr 8 lengths (2 * j)
      let bytes ← plain (nextBytes codec (code % 4 + 1))
      let value ← ofLeBytes bytes
      return value :: (← valuesOfLengths codec lengths (j + 1) n)

theorem valuesOfLengths_agrees (codec : String) (lengths : Nat) {j n : Nat} (h : j + n ≤ 4) :
    Agrees id (valuesOfLengths codec lengths j n)
      (Postings.valuesOfLengths codec (lengths / 4 ^ j) n) := by
  induction n generalizing j with
  | zero => exact .pure []
  | succ n ih =>
      have hcode : lengths / 2 ^ (2 * j) = lengths / 4 ^ j := by
        rw [Nat.pow_mul]
      have hnext : lengths / 4 ^ (j + 1) = lengths / 4 ^ j / 4 := by
        rw [Nat.pow_succ, Nat.div_div_eq_div_mul]
      rw [valuesOfLengths, Postings.valuesOfLengths]
      refine .after (if_pos (show 2 * j < 8 by omega)) ?_
      rw [hcode]
      refine (Agrees.plain _).bind (nextBytes_length _ _) fun bytes hbytes => ?_
      refine .after (ofLeBytes_eq (by omega)) ?_
      rw [← hnext]
      exact (ih (by omega)).bind (.any _) fun values _ => .pure _

namespace GroupVarint

/-- Reads `n` values. -/
def decode (n : Nat) : Checked ByteInput (List Nat) := do
  if n = 0 then
    return []
  else
    let lengths ← plain (nextByte "varintgb")
    let group ← valuesOfLengths "varintgb" lengths.toNat 0 (min n 4)
    return group ++ (← decode (n - 4))
termination_by n

theorem decode_agrees (n : Nat) : Agrees id (decode n) (Postings.GroupVarint.decode n) := by
  fun_induction decode n with
  | case1 =>
      rw [Postings.GroupVarint.decode]
      exact .pure []
  | case2 n hn ih =>
      rw [Postings.GroupVarint.decode, if_neg hn]
      refine (Agrees.plain _).bind (.any _) fun lengths _ => ?_
      have hgroup := valuesOfLengths_agrees "varintgb" lengths.toNat
        (show 0 + min n 4 ≤ 4 by omega)
      rw [Nat.pow_zero, Nat.div_one] at hgroup
      exact hgroup.bind (.any _) fun group _ => ih.bind (.any _) fun values _ => .pure _

end GroupVarint

namespace StreamVByte

/-- Reads `n` values whose length bytes are given. -/
def decodeValues : (lengths : List UInt8) → (n : Nat) → Checked ByteInput (List Nat)
  | [], _ => return []
  | byte :: lengths, n => do
      let group ← valuesOfLengths "streamvbyte" byte.toNat 0 (min n 4)
      return group ++ (← decodeValues lengths (n - 4))

/-- Reads `n` values. -/
def decode (n : Nat) : Checked ByteInput (List Nat) := do
  decodeValues (← plain (nextBytes "streamvbyte" ((n + 3) / 4))) n

theorem decodeValues_agrees (lengths : List UInt8) (n : Nat) :
    Agrees id (decodeValues lengths n) (Postings.StreamVByte.decodeValues lengths n) := by
  induction lengths generalizing n with
  | nil => exact .pure []
  | cons byte lengths ih =>
      have hgroup := valuesOfLengths_agrees "streamvbyte" byte.toNat
        (show 0 + min n 4 ≤ 4 by omega)
      rw [Nat.pow_zero, Nat.div_one] at hgroup
      exact hgroup.bind (.any _) fun group _ => (ih _).bind (.any _) fun values _ => .pure _

theorem decode_agrees (n : Nat) : Agrees id (decode n) (Postings.StreamVByte.decode n) :=
  (Agrees.plain _).bind (.any _) fun lengths _ => decodeValues_agrees lengths n

end StreamVByte

namespace GroupUnary

/-- At most `n` values of a group: the first begins at the data byte `start` and ends at the
lowest mark, which is then cleared. -/
def valuesOfMarks (data : List UInt8) : (n marks start : Nat) → Option (Except Error (List Nat))
  | 0, _, _ => some (.ok [])
  | n + 1, marks, start =>
      match (ones marks).head? with
      | none => some (.ok [])
      | some last => do
          let len ← sub (last + 1) start
          if 4 < len then
            return .error (.invalidFormat "varintg8iu" "value longer than four bytes")
          else
            let value ← ofLeBytes (← slice data start len)
            let others ← valuesOfMarks data n (marks &&& (← sub marks 1)) (last + 1)
            return others.map (value :: ·)

/-- The marks from the byte `start` on tell the values that a walk from there finds. -/
theorem valuesOfMarks_eq {data : List UInt8} (hdata : data.length ≤ 8) {n : Nat} :
    ∀ {marks start : Nat}, 2 ^ start * marks < 2 ^ data.length →
      valuesOfMarks data n (2 ^ start * marks) start =
        some (Postings.GroupUnary.valuesOfMarks n marks [] (data.drop start)) := by
  induction n with
  | zero =>
      intro marks start _
      cases data.drop start <;> rfl
  | succ n ih =>
      intro marks start hmarks
      by_cases hzero : marks = 0
      · subst hzero
        rw [Postings.GroupUnary.valuesOfMarks_zero, Nat.mul_zero]
        rfl
      obtain ⟨k, _, ⟨m, rfl⟩, rfl⟩ := Nat.exists_eq_two_pow_mul_odd hzero
      rw [← Nat.mul_assoc, ← Nat.pow_add] at hmarks ⊢
      have hlast : start + k < data.length := by
        refine (Nat.pow_lt_pow_iff_right (show 1 < 2 by decide)).mp
          (Nat.lt_of_le_of_lt (Nat.le_mul_of_pos_right _ (Nat.succ_pos _)) hmarks)
      have hsplit : data.drop start =
          (data.drop start).take (k + 1) ++ data.drop (start + k + 1) := by
        conv_lhs => rw [← List.take_append_drop (k + 1) (data.drop start), List.drop_drop]
        rfl
      have hlength : ((data.drop start).take (k + 1)).length = k + 1 := by
        rw [List.length_take, List.length_drop]
        omega
      have hvalue := @Postings.GroupUnary.valuesOfMarks_value ((data.drop start).take (k + 1)) []
        (data.drop (start + k + 1)) (n + 1) m (by rw [← List.length_pos_iff]; omega)
        (Nat.succ_pos n)
      rw [hlength, ← hsplit, Nat.add_sub_cancel, List.length_nil, Nat.zero_add] at hvalue
      have hodd : 2 ^ k * (2 * m + 1) = 2 ^ k + 2 ^ (k + 1) * m := by
        rw [Nat.mul_succ, Nat.pow_succ, Nat.mul_assoc, Nat.add_comm]
      rw [valuesOfMarks, ones_lowest (by omega), List.head?_cons, hodd, hvalue]
      have hlen : sub (start + k + 1) start = some (k + 1) := by
        rw [sub, if_pos (by omega)]
        congr 1
        omega
      simp only [hlen, Option.bind_eq_bind, Option.bind_some]
      by_cases hlong : 4 < k + 1
      · rw [if_pos hlong, if_pos hlong]
        rfl
      rw [if_neg hlong, if_neg hlong]
      have hslice : slice data start (k + 1) = some ((data.drop start).take (k + 1)) :=
        if_pos (by omega)
      have hpred : sub (2 ^ (start + k) * (2 * m + 1)) 1 =
          some (2 ^ (start + k) * (2 * m + 1) - 1) :=
        if_pos (Nat.mul_pos (Nat.two_pow_pos _) (Nat.succ_pos _))
      have hrest := @ih m (start + k + 1) (by
        refine Nat.lt_of_le_of_lt ?_ hmarks
        rw [Nat.pow_succ, Nat.mul_assoc]
        exact Nat.mul_le_mul_left _ (Nat.le_succ _))
      simp only [hslice, Option.bind_some, ofLeBytes_eq (show _ ≤ 4 by rw [hlength]; omega), hpred,
        and_pred, hrest, List.nil_append]
      rfl

/-- Reads `n` values from at most `left` groups. -/
def decodeGroups : (left n : Nat) → Checked ByteInput (List Nat)
  | 0, _ => return []
  | left + 1, n => do
      if n = 0 then
        return []
      else
        let bytes ← plain (nextBytes "varintg8iu" 9)
        let marks := (bytes.headD 0).toNat
        if marks = 0 then
          throw (.invalidFormat "varintg8iu" "empty group descriptor")
        let answer ← valuesOfMarks bytes.tail n marks 0
        let group ← (answer : Except Error (List Nat))
        return group ++ (← decodeGroups left (n - group.length))

theorem decodeGroups_agrees (left n : Nat) :
    Agrees id (decodeGroups left n) (Postings.GroupUnary.decodeGroups left n) := by
  induction left generalizing n with
  | zero => exact .pure []
  | succ left ih =>
      rw [decodeGroups, Postings.GroupUnary.decodeGroups]
      split
      · exact .pure []
      refine (Agrees.plain _).bind (nextBytes_length _ _) fun bytes hbytes => ?_
      have hlength : bytes.tail.length = 8 := by
        rw [List.length_tail, hbytes]
      have hgroup := @valuesOfMarks_eq bytes.tail (Nat.le_of_eq hlength) n
        (bytes.headD 0).toNat 0 (by
          rw [Nat.pow_zero, Nat.one_mul, hlength]
          exact (bytes.headD 0).toNat_lt)
      rw [Nat.pow_zero, Nat.one_mul, List.drop_zero] at hgroup
      simp only
      split
      · exact .throw_bind _ _ _
      · refine .after hgroup ?_
        exact (Agrees.lift _).bind (.any _) fun group _ =>
          (ih _).bind (.any _) fun values _ => .pure _

end GroupUnary

end Checked
end Postings
