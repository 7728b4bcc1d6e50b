import Postings.Proofs.Codec.Block
import Postings.Proofs.Codec.Checked

/-!
# Decoders are exact about their input

A checked reader of bits keeps the bits that are left of the byte taken last as a number of
64 bits and counts them; the reader of bits that it agrees with keeps them as a list.  A
symbol takes at most 32 bits, so that a byte is put above at most 31 bits and none is lost.

Bisection is checked between bounds in order, and what it reads stays between them
(`nextTruncatedBinary_lt`).  So no difference on the way is below zero, nor is one of those
that the values are.

With this, nothing in any of the five codes can go wrong in the arithmetic, whatever the
bytes are: a decoder refuses its input or takes a front of it that holds a run, and each
byte of that front is needed.
-/

namespace Postings

namespace Checked

/-! ## Bits -/

/-- What a checked reader of bits reads from. -/
structure BitReader where
  /-- The bits that are left of the byte taken last, as a number. -/
  acc : Nat
  /-- How many there are. -/
  filled : Nat
  /-- The number of bytes taken so far. -/
  taken : Nat
  /-- The bytes that follow. -/
  rest : List UInt8

/-- The bits that are pending, seen as a number. -/
def BitReader.of (input : BitInput) : BitReader :=
  ⟨ofLowFirst input.pending, input.pending.length, input.taken, input.rest⟩

/-- Takes bytes until `len` bits are there. -/
def refill (len : Nat) : (acc filled taken : Nat) → List UInt8 → Option (Except Error BitReader)
  | acc, filled, taken, [] =>
      if len ≤ filled then some (.ok ⟨acc, filled, taken, []⟩)
      else some (.error (.regionTooShort "interpolative" ((taken + 1) * 8) (taken * 8)))
  | acc, filled, taken, byte :: rest =>
      if len ≤ filled then some (.ok ⟨acc, filled, taken, byte :: rest⟩)
      else do
        let high ← shl 64 byte.toNat filled
        refill len (acc ||| high) (← add 32 filled 8) (taken + 1) rest

/-- A byte is put above fewer bits than are asked for. -/
theorem refill_eq {len : Nat} (hlen : len ≤ 32) {rest : List UInt8} :
    ∀ (pending : List Bool) (taken : Nat),
      refill len (ofLowFirst pending) pending.length taken rest =
        some ((BitInput.refill len pending taken rest).map BitReader.of) := by
  induction rest with
  | nil =>
      intro pending taken
      rw [refill, BitInput.refill]
      split <;> rfl
  | cons byte rest ih =>
      intro pending taken
      rw [refill, BitInput.refill]
      by_cases henough : len ≤ pending.length
      · rw [if_pos henough, if_pos henough]
        rfl
      rw [if_neg henough, if_neg henough, ← ih]
      have hbyte : ofLowFirst (pending ++ lowFirst 8 byte.toNat) =
          ofLowFirst pending ||| byte.toNat * 2 ^ pending.length := by
        rw [or_above (ofLowFirst_lt pending), ofLowFirst_append, ofLowFirst_lowFirst,
          Nat.mod_eq_of_lt byte.toNat_lt]
      have hcount : add 32 pending.length 8 = some (pending ++ lowFirst 8 byte.toNat).length := by
        rw [List.length_append, length_lowFirst]
        exact if_pos (by omega)
      simp only [shl_eq byte.toNat_lt (show pending.length + 8 ≤ 64 by omega) (by decide), hcount,
        Option.bind_eq_bind, Option.bind_some, hbyte]

/-- The next `len` bits, as a number. -/
def nextBits (len : Nat) : Checked BitReader Nat := do
  let reader ← get
  let answer ← refill len reader.acc reader.filled reader.taken reader.rest
  let reader ← (answer : Except Error BitReader)
  let mask ← sub (← shl 64 1 len) 1
  let acc ← shr 64 reader.acc len
  let filled ← sub reader.filled len
  set { reader with acc, filled }
  return reader.acc &&& mask

theorem nextBits_agrees {len : Nat} (hlen : len ≤ 32) :
    Agrees BitReader.of (nextBits len) (Postings.nextBits len) := by
  refine ⟨fun input => ?_⟩
  have hrefill : refill len (BitReader.of input).acc (BitReader.of input).filled
      (BitReader.of input).taken (BitReader.of input).rest =
        some ((BitInput.refill len input.pending input.taken input.rest).map BitReader.of) :=
    refill_eq hlen input.pending input.taken
  have hget : runFrom (get : Checked BitReader BitReader) (BitReader.of input) =
      some (.ok (BitReader.of input), BitReader.of input) := rfl
  rw [runFrom_nextBits, nextBits, runFrom_bind, hget]
  simp only
  rw [runFrom_lift_bind hrefill]
  cases hfill : BitInput.refill len input.pending input.taken input.rest with
  | error e => rfl
  | ok filled =>
      have henough := BitInput.le_of_refill hfill
      have hlimit : shl 64 1 len = some (1 * 2 ^ len) :=
        shl_eq (show 1 < 2 ^ 1 by decide) (by omega) (by decide)
      have hmask : sub (1 * 2 ^ len) 1 = some (2 ^ len - 1) := by
        rw [Nat.one_mul]
        exact if_pos (Nat.two_pow_pos len)
      have hacc : shr 64 (BitReader.of filled).acc len =
          some (ofLowFirst (filled.pending.drop len)) := by
        rw [ofLowFirst_drop henough]
        exact if_pos (by omega)
      have hfilled : sub (BitReader.of filled).filled len =
          some (filled.pending.drop len).length := by
        rw [List.length_drop]
        exact if_pos henough
      have hfound : runFrom (liftM (Except.ok (BitReader.of filled) : Except Error BitReader) :
          Checked BitReader BitReader) (BitReader.of input) =
            some (.ok (BitReader.of filled), BitReader.of input) := rfl
      rw [Except.map, runFrom_bind, hfound]
      simp only
      rw [runFrom_lift_bind hlimit, runFrom_lift_bind hmask, runFrom_lift_bind hacc,
        runFrom_lift_bind hfilled, ofLowFirst_take henough, ← Nat.and_two_pow_sub_one_eq_mod]
      rfl

/-- Reads a symbol of `range` symbols; a code word is as wide as the last of them, or one bit
less. -/
def nextTruncatedBinary (range : Nat) : Checked BitReader Nat := do
  if range ≤ 1 then
    return 0
  else
    let width := (← sub range 1).log2 + 1
    let short ← sub (← shl 64 1 width) range
    let y ← nextBits (← sub width 1)
    if y < short then
      return y
    else
      let bit ← nextBits 1
      let double ← shl 64 (← sub y short) 1
      add 64 short (double ||| bit)

theorem nextTruncatedBinary_agrees {range : Nat} (h : range ≤ 2 ^ 32) :
    Agrees BitReader.of (nextTruncatedBinary range) (Postings.nextTruncatedBinary range) := by
  rw [nextTruncatedBinary, Postings.nextTruncatedBinary]
  by_cases hone : range ≤ 1
  · rw [if_pos hone, if_pos hone]
    exact .pure 0
  rw [if_neg hone, if_neg hone]
  have hlast : (range - 1).log2 + 1 = ceilLog2 range := by rw [ceilLog2, if_neg hone]
  have hwidth : ceilLog2 range ≤ 32 := ceilLog2_le h
  have hpos : 0 < ceilLog2 range := ceilLog2_pos (by omega)
  have hpow : 2 ^ (ceilLog2 range - 1) ≤ 2 ^ 31 := Nat.pow_le_pow_right (by decide) (by omega)
  have hlimit : shl 64 1 (ceilLog2 range) = some (1 * 2 ^ ceilLog2 range) :=
    shl_eq (show 1 < 2 ^ 1 by decide) (by omega) (by decide)
  have hshort : sub (1 * 2 ^ ceilLog2 range) range = some (2 ^ ceilLog2 range - range) := by
    rw [Nat.one_mul]
    exact if_pos (le_two_pow_ceilLog2 range)
  refine .after (if_pos (show 1 ≤ range by omega)) ?_
  simp only [hlast]
  refine .after hlimit (.after hshort (.after (if_pos hpos) ?_))
  refine (nextBits_agrees (by omega)).bind (nextBits_lt _) fun y hy => ?_
  generalize 2 ^ ceilLog2 range - range = short
  by_cases hfirst : y < short
  · rw [if_pos hfirst, if_pos hfirst]
    exact .pure y
  rw [if_neg hfirst, if_neg hfirst]
  refine (nextBits_agrees (by decide)).bind (nextBits_lt 1) fun bit hbit => ?_
  have hover : y - short < 2 ^ 31 := by omega
  have hdouble : shl 64 (y - short) 1 = some ((y - short) * 2 ^ 1) :=
    shl_eq hover (by decide) (by decide)
  have hor : (y - short) * 2 ^ 1 ||| bit = 2 * (y - short) + bit := by
    rw [Nat.or_comm, or_above hbit, Nat.add_comm]
  have hsum : add 64 short ((y - short) * 2 ^ 1 ||| bit) =
      some (short + (2 * (y - short) + bit)) := by
    rw [hor]
    exact if_pos (by omega)
  exact .after (if_pos (Nat.not_lt.mp hfirst)) (.after hdouble (.computed hsum))

namespace Interpolative

/-- Reads `n` sums between two bounds. -/
def unbisect (n low high : Nat) : Checked BitReader (List Nat) := do
  if n = 0 then
    return []
  else if low = high then
    return List.replicate n low
  else
    let half := n / 2
    let range ← add 64 (← sub high low) 1
    let x ← nextTruncatedBinary range
    let middle ← add 32 low (x % 2 ^ 32)
    let left ← unbisect half low middle
    let right ← unbisect (n - half - 1) middle high
    return left ++ middle :: right
termination_by n
decreasing_by all_goals omega

/-- Between bounds in order what is read is in order. -/
theorem unbisect_agrees {n low high : Nat} (hlow : low ≤ high) (hhigh : high < 2 ^ 32) :
    Agrees BitReader.of (unbisect n low high) (Postings.Interpolative.unbisect n low high) := by
  induction n using Nat.strongRecOn generalizing low high with
  | _ n ih =>
      rw [unbisect, Postings.Interpolative.unbisect]
      split
      · exact .pure []
      split
      · exact .pure _
      have hrange : add 64 (high - low) 1 = some (high - low + 1) := if_pos (by omega)
      simp only
      refine .after (if_pos hlow) (.after hrange ?_)
      refine (nextTruncatedBinary_agrees (by omega)).bind (nextTruncatedBinary_lt (Nat.succ_pos _))
        fun x hx => ?_
      have hmiddle : add 32 low (x % 2 ^ 32) = some (low + x) := by
        rw [Nat.mod_eq_of_lt (by omega)]
        exact if_pos (by omega)
      refine .after hmiddle ?_
      exact (ih _ (by omega) (by omega) (by omega)).bind (.any _) fun left _ =>
        (ih _ (by omega) (by omega) hhigh).bind (.any _) fun right _ => .pure _

/-- The values whose running sums from `sum` are given. -/
def differences (sum : Nat) : List Nat → Option (List Nat)
  | [] => some []
  | s :: sums => do
      let value ← sub s sum
      return value :: (← differences s sums)

theorem differences_eq {high : Nat} {sums : List Nat} :
    ∀ {low : Nat}, Postings.Interpolative.Climb low high sums →
      differences low (sums ++ [high]) =
        some (Postings.Interpolative.differences low (sums ++ [high])) := by
  induction sums with
  | nil =>
      intro low h
      have hle : low ≤ high := h
      rw [List.nil_append, differences, sub, if_pos hle]
      rfl
  | cons s sums ih =>
      intro low h
      rw [List.cons_append, differences, sub, if_pos h.1, ih h.2]
      rfl

/-- Sums that go down would fault. -/
example : differences 0 [5, 3] = none := by decide

/-- The sum of a run: known, or the first thing that is read. -/
def totalOf : Option Nat → Checked ByteInput Nat
  | some sum => pure sum
  | none => decodeOne Base128.terminated

theorem totalOf_agrees (hint : Option Nat) :
    Agrees id (totalOf hint) (Postings.Interpolative.totalOf hint) := by
  cases hint with
  | none => exact decodeOne_agrees Base128.terminated
  | some sum => exact .pure sum

/-- Reads `n` values; answers with them and with the number of bytes read. -/
def decode (bytes : List UInt8) (n : Nat) (hint : Option Nat) :
    Option (Except Error (List Nat × Nat)) :=
  if n = 0 then some (.ok ([], 0))
  else do
    match ← (totalOf hint).runFrom (.start bytes) with
    | (.error e, _) => return .error e
    | (.ok sum, input) =>
        match ← (unbisect (n - 1) 0 sum).runFrom (.of (.start input.rest)) with
        | (.error e, _) => return .error e
        | (.ok sums, reader) =>
            return .ok (← differences 0 (sums ++ [sum]), input.taken + reader.taken)

theorem decode_agrees (bytes : List UInt8) (n : Nat) {hint : Option Nat}
    (hhint : ∀ total, hint = some total → total < 2 ^ 32) :
    decode bytes n hint = some (Postings.Interpolative.decode bytes n hint) := by
  rw [decode]
  by_cases hn : n = 0
  · subst hn
    rfl
  rcases htotal : Attempt.runFrom (Postings.Interpolative.totalOf hint) (.start bytes)
    with ⟨answer, input⟩
  have hchecked : (totalOf hint).runFrom (.start bytes) = some (answer, input) :=
    (totalOf_agrees hint).run_eq htotal
  rw [if_neg hn, Postings.Interpolative.decode_eq hn, htotal, hchecked]
  cases answer with
  | error e => rfl
  | ok sum =>
      have hsum : sum < 2 ^ 32 := (Postings.Interpolative.totalOf_lt hhint).run htotal
      rcases hsums : Attempt.runFrom (Postings.Interpolative.unbisect (n - 1) 0 sum)
        (.start input.rest) with ⟨answer, bits⟩
      have hchecked := (unbisect_agrees (Nat.zero_le sum) hsum).run_eq hsums
      simp only [Option.bind_eq_bind, Option.bind_some, hchecked, hsums]
      cases answer with
      | error e => rfl
      | ok sums =>
          obtain ⟨-, hclimb⟩ := (Postings.Interpolative.unbisect_climb (Nat.zero_le sum)).run hsums
          simp only [differences_eq hclimb, Option.bind_some]
          rfl

end Interpolative

/-! ## Blocks -/

/-- The answer of a checked decoding and the number of bytes that it took. -/
def decodeFrom (decoding : Checked ByteInput (List Nat)) (bytes : List UInt8) :
    Option (Except Error (List Nat × Nat)) := do
  match ← decoding.runFrom (.start bytes) with
  | (.ok values, input) => return .ok (values, input.taken)
  | (.error e, _) => return .error e

theorem decodeFrom_agrees {checked : Checked ByteInput (List Nat)} {decoding : Decoding (List Nat)}
    (h : Agrees id checked decoding) (bytes : List UInt8) :
    decodeFrom checked bytes = some (Codec.decodeFrom decoding bytes) := by
  rcases hrun : Attempt.runFrom decoding (.start bytes) with ⟨answer, after⟩
  have hchecked : checked.runFrom (.start bytes) = some (answer, after) := h.run_eq hrun
  rw [decodeFrom, Codec.decodeFrom, hrun, hchecked]
  cases answer <;> rfl

/-- Reads a run of `n` values in the codec's own code. -/
def decodeBlock (codec : Codec) (bytes : List UInt8) (n : Nat) :
    Option (Except Error (List Nat × Nat)) :=
  match codec with
  | .vbyte => decodeFrom (decodeTimes (decodeOne Base128.continued) n) bytes
  | .groupVarint => decodeFrom (GroupVarint.decode n) bytes
  | .groupUnary => decodeFrom (GroupUnary.decodeGroups n n) bytes
  | .streamVByte => decodeFrom (StreamVByte.decode n) bytes
  | .interpolative => Interpolative.decode bytes n none

/-- Reads a run of `n` values from the front of the bytes, in checked arithmetic. -/
def decode (codec : Codec) (bytes : List UInt8) (n : Nat) (hint : Option Nat) :
    Option (Except Error (List Nat × Nat)) :=
  if n = 0 then some (.ok ([], 0))
  else if codec.usesInterpolative n then Interpolative.decode bytes n hint
  else decodeBlock codec bytes n

/-- **Decoding never faults**, whatever the bytes are. -/
theorem decode_agrees (codec : Codec) (bytes : List UInt8) (n : Nat) {hint : Option Nat}
    (hhint : ∀ total, hint = some total → total < 2 ^ 32) :
    decode codec bytes n hint = some (codec.decode bytes n hint) := by
  rw [decode, Codec.decode]
  split
  · rfl
  split
  · exact Interpolative.decode_agrees bytes n hhint
  cases codec with
  | vbyte =>
      exact decodeFrom_agrees (decodeTimes_agrees (decodeOne_agrees Base128.continued) n) bytes
  | groupVarint => exact decodeFrom_agrees (GroupVarint.decode_agrees n) bytes
  | groupUnary => exact decodeFrom_agrees (GroupUnary.decodeGroups_agrees n n) bytes
  | streamVByte => exact decodeFrom_agrees (StreamVByte.decode_agrees n) bytes
  | interpolative => exact Interpolative.decode_agrees bytes n fun _ hnone => by cases hnone

end Checked

namespace Codec

/-- **Block decoders are exact about their input.**  Whatever the bytes and the hint are, no
operation faults.  A decoder that answers has taken no more bytes than there are and found as
many values as were asked for, each of 32 bits; whatever begins with the same bytes is
decoded the same, and where these bytes are cut short the decoder says so.  The values of an
interpolative run add up to the sum that was announced or stored. -/
theorem decoding_exact (codec : Codec) (bytes : List UInt8) (n : Nat) (hint : Option UInt32) :
    Checked.decode codec bytes n (hint.map UInt32.toNat) =
      some (codec.decode bytes n (hint.map UInt32.toNat)) ∧
    ∀ values consumed, codec.decode bytes n (hint.map UInt32.toNat) = .ok (values, consumed) →
      consumed ≤ bytes.length ∧ values.length = n ∧ (∀ v ∈ values, v < 2 ^ 32) ∧
      (∀ other, other.take consumed = bytes.take consumed →
        codec.decode other n (hint.map UInt32.toNat) = .ok (values, consumed)) ∧
      (∀ front, front <+: bytes.take consumed → front ≠ bytes.take consumed →
        ∃ region required available, codec.decode front n (hint.map UInt32.toNat) =
          .error (.regionTooShort region required available) ∧ available < required) ∧
      (codec.usesInterpolative n = true → 0 < n →
        (∀ total, hint = some total → values.sum = total.toNat) ∧
        (hint = none → ∃ after, Base128.terminated.decodeOne.runFrom (.start bytes) =
          (.ok values.sum, after))) := by
  have hhint : ∀ total, hint.map UInt32.toNat = some total → total < 2 ^ 32 := by
    intro total htotal
    obtain ⟨word, -, rfl⟩ := Option.map_eq_some_iff.mp htotal
    exact word.toNat_lt
  refine ⟨Checked.decode_agrees codec bytes n hhint, fun values consumed h => ?_⟩
  obtain ⟨hlength, hlt⟩ := isRun_of_decode hhint h
  obtain ⟨used, more, rfl, hexact⟩ := decode_exactly h
  obtain ⟨-, rfl⟩ := Prod.mk.inj (Except.ok.inj (h.symm.trans (hexact.takes more)))
  rw [List.take_left]
  refine ⟨?_, hlength, hlt, fun other hother => ?_, fun front hfront hne => ?_,
    fun hcharge hpos => ?_⟩
  · rw [List.length_append]
    exact Nat.le_add_right _ _
  · rw [← List.take_append_drop used.length other, hother]
    exact hexact.takes _
  · obtain ⟨e, herror, region, required, available, rfl, hlt⟩ := hexact.misses front hfront hne
    exact ⟨region, required, available, herror, hlt⟩
  · have hn : n ≠ 0 := Nat.ne_of_gt hpos
    rw [decode, if_neg hn, if_pos hcharge] at h
    obtain ⟨-, after, htotal⟩ := Interpolative.sum_of_decode hn h
    refine ⟨fun total hsome => ?_, fun hnone => ?_⟩
    · subst hsome
      exact (Except.ok.inj (Prod.mk.inj htotal).1).symm
    · subst hnone
      exact ⟨after, htotal⟩

/-- Four values with a stored sum, followed by a byte that is left alone. -/
theorem decoding_exact_of_four :
    Codec.decode .interpolative [145, 243, 0, 7] 4 none = .ok ([3, 0, 5, 9], 3) ∧
    Checked.decode .interpolative [145, 243, 0, 7] 4 none = some (.ok ([3, 0, 5, 9], 3)) ∧
    Codec.decode .interpolative [145, 243, 0] 4 none = .ok ([3, 0, 5, 9], 3) ∧
    (∃ region required available, Codec.decode .interpolative [145, 243] 4 none =
      .error (.regionTooShort region required available) ∧ available < required) ∧
    ∃ after, Base128.terminated.decodeOne.runFrom (.start [145, 243, 0, 7]) =
      (.ok ([3, 0, 5, 9] : List Nat).sum, after) := by
  have hdecode : Codec.decode .interpolative [145, 243, 0, 7] 4 none = .ok ([3, 0, 5, 9], 3) := by
    decide +kernel
  obtain ⟨hchecked, hexact⟩ := decoding_exact .interpolative [145, 243, 0, 7] 4 none
  obtain ⟨-, -, -, hsame, hcut, hsum⟩ := hexact _ _ hdecode
  exact ⟨hdecode, hchecked.trans (congrArg some hdecode), hsame [145, 243, 0] rfl,
    hcut [145, 243] (by decide) (by decide), (hsum rfl (by decide)).2 rfl⟩

end Codec
end Postings
