import Postings.Codec.Block
import Postings.Proofs.Codec.GroupUnary
import Postings.Proofs.Codec.Interpolative

/-!
# Blocks, read back

Every codec reads back what it wrote and consumes exactly the bytes of the block,
whatever follows them.  Only the interpolative code refuses a run, for its sum or for
a hint that is not its sum.
-/

namespace Postings
namespace Codec

theorem decodeFrom_of_takes {decoding : Decoding (List Nat)} {bytes : List UInt8}
    {values : List Nat} (h : Takes decoding bytes values) (rest : List UInt8) :
    decodeFrom decoding (bytes ++ rest) = .ok (values, bytes.length) := by
  rw [decodeFrom, ByteInput.start, h, Nat.zero_add]

/-- A block in the codec's own code is read back. -/
theorem decodeBlock_encodeBlock {codec : Codec} {values : List Nat} {bytes : List UInt8}
    (hvalues : ∀ x ∈ values, x < 2 ^ 32) (h : codec.encodeBlock values = .ok bytes)
    (rest : List UInt8) :
    codec.decodeBlock (bytes ++ rest) values.length = .ok (values, bytes.length) := by
  cases codec with
  | vbyte =>
      obtain rfl := Except.ok.inj h
      exact decodeFrom_of_takes (Base128.continued.takes_decode hvalues) rest
  | groupVarint =>
      obtain rfl := Except.ok.inj h
      exact decodeFrom_of_takes (takes_groupVarint hvalues) rest
  | groupUnary =>
      obtain rfl := Except.ok.inj h
      exact decodeFrom_of_takes (GroupUnary.takes_groupUnary hvalues) rest
  | streamVByte =>
      obtain rfl := Except.ok.inj h
      exact decodeFrom_of_takes (takes_streamVByte hvalues) rest
  | interpolative =>
      have hrun : Interpolative.encode values none = .ok bytes := h
      exact Interpolative.decode_encode hrun rest

/-- A run that was accepted is read back, with the hint that it was written with. -/
theorem decode_encode {codec : Codec} {values : List Nat} {hint : Option Nat}
    {bytes : List UInt8} (hvalues : ∀ x ∈ values, x < 2 ^ 32)
    (h : codec.encode values hint = .ok bytes) (rest : List UInt8) :
    codec.decode (bytes ++ rest) values.length hint = .ok (values, bytes.length) := by
  rw [encode] at h
  rw [decode]
  cases values with
  | nil =>
      obtain rfl := Except.ok.inj h
      rfl
  | cons x values =>
      simp only [List.isEmpty_cons, Bool.false_eq_true, if_false] at h
      rw [if_neg (by simp)]
      split at h
      · rename_i hinterpolative
        rw [if_pos hinterpolative]
        exact Interpolative.decode_encode h rest
      · rename_i hown
        rw [if_neg hown]
        exact decodeBlock_encodeBlock hvalues h rest

/-- A code of whole bytes refuses nothing. -/
theorem exists_encodeBlock {codec : Codec} (h : codec ≠ .interpolative) (values : List Nat) :
    ∃ bytes, codec.encodeBlock values = .ok bytes := by
  cases codec with
  | vbyte => exact ⟨_, rfl⟩
  | groupVarint => exact ⟨_, rfl⟩
  | groupUnary => exact ⟨_, rfl⟩
  | streamVByte => exact ⟨_, rfl⟩
  | interpolative => exact absurd rfl h

theorem usesInterpolative_iff {codec : Codec} {length : Nat} :
    codec.usesInterpolative length = true ↔
      codec = .interpolative ∨ length < codec.fallbackThreshold := by
  rw [usesInterpolative, Bool.or_eq_true, beq_iff_eq, decide_eq_true_eq]

/-- A run whose sum fits 32 bits is accepted. -/
theorem exists_encode (codec : Codec) {values : List Nat} (h : values.sum < 2 ^ 32) :
    ∃ bytes, codec.encode values none = .ok bytes := by
  rw [encode]
  split
  · exact ⟨[], rfl⟩
  · split
    · exact Interpolative.exists_encode h
    · rename_i hown
      exact exists_encodeBlock (fun hcodec => hown (usesInterpolative_iff.mpr (.inl hcodec))) values

/-- A run is refused exactly when it has values, the interpolative code is in charge,
and its sum passes 32 bits or is not the one that was announced. -/
theorem encode_refused_iff {codec : Codec} {values : List Nat} {hint : Option Nat} :
    (∃ e, codec.encode values hint = .error e) ↔
      values ≠ [] ∧ (codec = .interpolative ∨ values.length < codec.fallbackThreshold) ∧
        (2 ^ 32 ≤ values.sum ∨ ∃ total, hint = some total ∧ total ≠ values.sum) := by
  rw [← usesInterpolative_iff]
  cases values with
  | nil =>
      constructor
      · rintro ⟨e, h⟩
        cases h
      · rintro ⟨h, -⟩
        exact absurd rfl h
  | cons x values =>
      rw [encode]
      simp only [List.isEmpty_cons, Bool.false_eq_true, if_false]
      by_cases hcharge : codec.usesInterpolative (x :: values).length = true
      · rw [if_pos hcharge]
        have haccepted := @Interpolative.exists_encode_cons_iff x values hint
        constructor
        · rintro ⟨e, he⟩
          refine ⟨List.cons_ne_nil _ _, hcharge, ?_⟩
          by_contra hfine
          rw [not_or, Nat.not_le, not_exists] at hfine
          obtain ⟨bytes, hbytes⟩ := haccepted.mpr ⟨hfine.1, fun total htotal =>
            not_not.mp fun hne => hfine.2 total ⟨htotal, hne⟩⟩
          rw [he] at hbytes
          cases hbytes
        · rintro ⟨-, -, hbad⟩
          cases hrun : Interpolative.encode (x :: values) hint with
          | error e => exact ⟨e, rfl⟩
          | ok bytes =>
              obtain ⟨hfits, hhint⟩ := haccepted.mp ⟨bytes, hrun⟩
              rcases hbad with hlarge | ⟨total, htotal, hne⟩
              · exact absurd hfits (Nat.not_lt.mpr hlarge)
              · exact absurd (hhint total htotal) hne
      · rw [if_neg hcharge]
        constructor
        · rintro ⟨e, he⟩
          obtain ⟨bytes, hbytes⟩ := @exists_encodeBlock codec
            (fun h => hcharge (usesInterpolative_iff.mpr (.inl h))) (x :: values)
          rw [he] at hbytes
          cases hbytes
        · rintro ⟨-, h, -⟩
          exact absurd h hcharge

end Codec
end Postings
