import Postings.Proofs.Codec.Length
import Postings.Proofs.Sequence.Follows
import Postings.Sequence.GapBlocks

/-!
# Blocks of gaps, written and decoded

The gaps of a list determine it, and so does each stretch of them together with
the value in front.  After `k` blocks have been decoded what is left of the bytes
begins with the blocks that remain (`Remaining`); decoding one more block answers
with the next stretch of the list.  The gaps add up to no more than the last value,
so every block of an ascending list is accepted by every codec.
-/

namespace Postings
namespace GapBlocks

/-! ## Gaps -/

/-- Increasing values behind a value. -/
def Above (prev : Option Nat) (values : List Nat) : Prop :=
  values.Pairwise (· < ·) ∧ ∀ p ∈ prev, ∀ v ∈ values, p < v

theorem above_none {values : List Nat} (h : values.Pairwise (· < ·)) : Above none values :=
  ⟨h, fun _ hp => by cases hp⟩

theorem Above.tail {prev : Option Nat} {v : Nat} {values : List Nat}
    (h : Above prev (v :: values)) : Above (some v) values := by
  obtain ⟨hv, hvalues⟩ := List.pairwise_cons.mp h.1
  refine ⟨hvalues, fun p hp => ?_⟩
  obtain rfl := Option.some.inj hp
  exact hv

@[simp] theorem length_gapsOf (prev : Option Nat) (values : List Nat) :
    (gapsOf prev values).length = values.length := by
  induction values generalizing prev with
  | nil => cases prev <;> rfl
  | cons v values ih => cases prev <;> rw [gapsOf, List.length_cons, ih, List.length_cons]

/-- The gaps lead back to the values. -/
theorem valuesOf_gapsOf {prev : Option Nat} {values : List Nat} (h : Above prev values) :
    valuesOf prev (gapsOf prev values) = values := by
  induction values generalizing prev with
  | nil => cases prev <;> rfl
  | cons v values ih =>
      cases prev with
      | none => rw [gapsOf, valuesOf, ih h.tail]
      | some p =>
          have hp := h.2 p rfl v List.mem_cons_self
          rw [gapsOf, valuesOf, show p + (v - p - 1) + 1 = v by omega, ih h.tail]

theorem take_gapsOf (prev : Option Nat) (values : List Nat) (m : Nat) :
    (gapsOf prev values).take m = gapsOf prev (values.take m) := by
  induction values generalizing prev m with
  | nil => cases prev <;> cases m <;> rfl
  | cons v values ih =>
      cases m with
      | zero => cases prev <;> rfl
      | succ m => cases prev <;> rw [gapsOf, List.take_succ_cons, ih, List.take_succ_cons, gapsOf]

/-- Gaps further on are gaps behind the last value that was passed. -/
theorem drop_gapsOf (prev : Option Nat) (values : List Nat) (m : Nat) :
    (gapsOf prev values).drop m = gapsOf ((values.take m).getLast?.or prev) (values.drop m) := by
  induction values generalizing prev m with
  | nil => cases prev <;> cases m <;> rfl
  | cons v values ih =>
      cases m with
      | zero => rfl
      | succ m =>
          have hlast : ((v :: values.take m).getLast?).or prev =
              ((values.take m).getLast?).or (some v) := by
            rw [List.getLast?_cons]
            cases (values.take m).getLast? <;> rfl
          rw [List.take_succ_cons, hlast]
          cases prev <;> rw [gapsOf, List.drop_succ_cons, ih, List.drop_succ_cons]

/-- The gaps behind a value add up, with their number, to the distance to the last. -/
theorem sum_gapsOf_some {p : Nat} {values : List Nat} (h : Above (some p) values) :
    p + (gapsOf (some p) values).sum + values.length = values.getLastD p := by
  induction values generalizing p with
  | nil => rfl
  | cons v values ih =>
      have hp := h.2 p rfl v List.mem_cons_self
      have := ih h.tail
      rw [gapsOf, List.sum_cons, List.length_cons, List.getLastD_cons, ← this]
      omega

theorem sum_gapsOf_le {values : List Nat} (h : values.Pairwise (· < ·)) :
    (gapsOf none values).sum ≤ values.getLastD 0 := by
  cases values with
  | nil => exact Nat.le_refl 0
  | cons v values =>
      have := sum_gapsOf_some (above_none h).tail
      rw [gapsOf, List.sum_cons, List.getLastD_cons, ← this]
      omega

/-! ## Blocks -/

theorem checkGaps_eq_ok (codec : Codec) {gaps : List Nat} :
    checkGaps codec gaps = .ok () ↔ ∀ gap ∈ gaps, gap < 2 ^ 32 := by
  induction gaps with
  | nil =>
      constructor
      · exact fun _ gap hgap => by cases hgap
      · exact fun _ => rfl
  | cons gap gaps ih =>
      rw [checkGaps, List.forall_mem_cons, ← ih]
      split
      · rename_i hlarge
        constructor
        · intro h
          cases h
        · intro h
          omega
      · rename_i hsmall
        exact ⟨fun h => ⟨Nat.not_le.mp hsmall, h⟩, fun h => h.2⟩

/-- What was encoded is the first block followed by the others. -/
theorem encodeBlocks_cons_eq_ok {codec : Codec} {block : List Nat} {blocks : List (List Nat)}
    {bytes : List UInt8} :
    encodeBlocks codec (block :: blocks) = .ok bytes ↔
      (∀ gap ∈ block, gap < 2 ^ 32) ∧ ∃ first others, codec.encode block none = .ok first ∧
        encodeBlocks codec blocks = .ok others ∧ bytes = first ++ others := by
  rw [encodeBlocks, ← checkGaps_eq_ok codec]
  cases checkGaps codec block with
  | error e =>
      constructor
      · intro h
        cases h
      · rintro ⟨h, -⟩
        cases h
  | ok =>
      cases codec.encode block none with
      | error e =>
          constructor
          · intro h
            cases h
          · rintro ⟨-, first, others, h, -⟩
            cases h
      | ok first =>
          cases encodeBlocks codec blocks with
          | error e =>
              constructor
              · intro h
                cases h
              · rintro ⟨-, _, others, -, h, -⟩
                cases h
          | ok others =>
              constructor
              · intro h
                exact ⟨rfl, first, others, rfl, rfl, (Except.ok.inj h).symm⟩
              · rintro ⟨-, _, _, hfirst, hothers, rfl⟩
                obtain rfl := Except.ok.inj hfirst
                obtain rfl := Except.ok.inj hothers
                rfl

/-- Blocks that add up to a 32-bit number are accepted. -/
theorem exists_encodeBlocks (codec : Codec) {blocks : List (List Nat)}
    (h : blocks.flatten.sum < 2 ^ 32) : ∃ bytes, encodeBlocks codec blocks = .ok bytes := by
  induction blocks with
  | nil => exact ⟨[], rfl⟩
  | cons block blocks ih =>
      rw [List.flatten_cons, List.sum_append] at h
      obtain ⟨others, hothers⟩ := ih (by omega)
      obtain ⟨first, hfirst⟩ := codec.exists_encode (show block.sum < 2 ^ 32 by omega)
      refine ⟨first ++ others, encodeBlocks_cons_eq_ok.mpr
        ⟨fun gap hgap => ?_, first, others, hfirst, hothers, rfl⟩⟩
      obtain ⟨front, back, rfl⟩ := List.append_of_mem hgap
      rw [List.sum_append, List.sum_cons] at h
      omega

/-- Every ascending list is accepted. -/
theorem exists_encodePayload (codec : Codec) {values : List Nat} {univ : Nat}
    (h : Ascending values univ) : ∃ bytes, encodePayload codec values = .ok bytes := by
  refine exists_encodeBlocks codec ?_
  rw [flatten_chunks]
  have hlast : values.getLastD 0 < univ := by
    rw [List.getLastD_eq_getLast?, List.getLast?_eq_some_getLast h.ne_nil, Option.getD_some]
    exact h.below _ (List.getLast_mem _)
  exact Nat.lt_of_le_of_lt (sum_gapsOf_le h.increasing)
    (Nat.lt_of_lt_of_le hlast h.univ_le)

theorem length_encodeBlocks_le {codec : Codec} {blocks : List (List Nat)} {bytes : List UInt8}
    (h : encodeBlocks codec blocks = .ok bytes) : bytes.length ≤ 9 * blocks.flatten.length := by
  induction blocks generalizing bytes with
  | nil =>
      obtain rfl := Except.ok.inj h
      exact Nat.zero_le _
  | cons block blocks ih =>
      obtain ⟨hgaps, first, others, hfirst, hothers, rfl⟩ := encodeBlocks_cons_eq_ok.mp h
      have hblock := Codec.length_encode_le hgaps hfirst
      have hrest := ih hothers
      rw [List.flatten_cons, List.length_append, List.length_append]
      omega

theorem length_encodePayload_le {codec : Codec} {values : List Nat} {bytes : List UInt8}
    (h : encodePayload codec values = .ok bytes) : bytes.length ≤ 9 * values.length := by
  have hbytes := length_encodeBlocks_le h
  rwa [flatten_chunks, length_gapsOf] at hbytes

/-! ## Decoding -/

/-- The bytes begin with the blocks that remain after `k` of them. -/
def Remaining (codec : Codec) (values : List Nat) (k : Nat) (bytes : List UInt8) : Prop :=
  ∃ payload rest,
    encodeBlocks codec (chunks Codec.blockSize ((gapsOf none values).drop (k * Codec.blockSize))) =
      .ok payload ∧ bytes = payload ++ rest

theorem remaining_zero {codec : Codec} {values : List Nat} {payload : List UInt8}
    (h : encodePayload codec values = .ok payload) (rest : List UInt8) :
    Remaining codec values 0 (payload ++ rest) :=
  ⟨payload, rest, by rw [Nat.zero_mul, List.drop_zero]; exact h, rfl⟩

theorem chunks_of_pos {values : List Nat} (h : 0 < values.length) :
    chunks Codec.blockSize values =
      values.take Codec.blockSize :: chunks Codec.blockSize (values.drop Codec.blockSize) := by
  cases values with
  | nil => cases h
  | cons v values => rw [chunks]; rfl

/-- The values of block `k`. -/
def blockAt (values : List Nat) (k : Nat) : List Nat :=
  (values.drop (k * Codec.blockSize)).take Codec.blockSize

/-- The value in front of block `k`. -/
def valueBefore (values : List Nat) (k : Nat) : Option Nat :=
  (values.take (k * Codec.blockSize)).getLast?

theorem length_blockAt (values : List Nat) (k : Nat) :
    (blockAt values k).length = min Codec.blockSize (values.length - k * Codec.blockSize) := by
  rw [blockAt, List.length_take, List.length_drop]

theorem getElem_blockAt {values : List Nat} {k i : Nat} (hi : i < (blockAt values k).length) :
    ∃ hj : k * Codec.blockSize + i < values.length,
      (blockAt values k)[i] = values[k * Codec.blockSize + i] := by
  have hlen := length_blockAt values k
  refine ⟨by omega, ?_⟩
  simp only [blockAt, List.getElem_take, List.getElem_drop]

/-- Decoding takes the next block off the bytes and answers with its values. -/
theorem decode_remaining {codec : Codec} {values : List Nat} {k : Nat} {bytes : List UInt8}
    (hincreasing : values.Pairwise (· < ·)) (h : Remaining codec values k bytes)
    (hk : k * Codec.blockSize < values.length) :
    ∃ gaps consumed,
      codec.decode bytes (min (values.length - k * Codec.blockSize) Codec.blockSize) none =
        .ok (gaps, consumed) ∧
      valuesOf (valueBefore values k) gaps = blockAt values k ∧
      Remaining codec values (k + 1) (bytes.drop consumed) := by
  obtain ⟨payload, rest, hpayload, rfl⟩ := h
  rw [chunks_of_pos (by rw [List.length_drop, length_gapsOf]; omega), List.drop_drop,
    ← Nat.succ_mul] at hpayload
  obtain ⟨hfit, first, others, hfirst, hothers, rfl⟩ := encodeBlocks_cons_eq_ok.mp hpayload
  have hdecode := Codec.decode_encode hfit hfirst (others ++ rest)
  rw [List.length_take, List.length_drop, length_gapsOf, Nat.min_comm, ← List.append_assoc]
    at hdecode
  refine ⟨_, _, hdecode, ?_, others, rest, hothers, ?_⟩
  · have habove : Above (valueBefore values k) (blockAt values k) := by
      refine ⟨(hincreasing.sublist (List.drop_sublist _ _)).sublist (List.take_sublist _ _),
        fun p hp v hv => ?_⟩
      rw [← List.take_append_drop (k * Codec.blockSize) values, List.pairwise_append] at hincreasing
      exact hincreasing.2.2 p (List.mem_of_getLast? hp) v (List.mem_of_mem_take hv)
    rw [drop_gapsOf, take_gapsOf, Option.or_none]
    exact valuesOf_gapsOf habove
  · rw [List.append_assoc, List.drop_left]

end GapBlocks
end Postings
