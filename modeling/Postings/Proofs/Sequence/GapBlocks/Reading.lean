import Postings.Proofs.Sequence.GapBlocks.Walk

/-!
# Blocks of gaps are read back

What was written as blocks of gaps is read at once, block after block, or with a cursor
that walks.  Both ways give back the list: decoding one more block answers with the next
stretch of it, and the value in front of the block after that is the last of the stretch.

The empty list has no region.  It is refused, and nothing is written of it; but where no
values are asked for, both ways read the empty list from any bits.
-/

namespace Postings
namespace GapBlocks

open SequenceCursor BitString

variable {codec : Codec} {values : List Nat} {univ : Nat}

/-! ## At once -/

/-- The value in front of the next block is the last of this one, if it has any. -/
theorem getLast?_blockAt_or (values : List Nat) (k : Nat) :
    (blockAt values k).getLast?.or (valueBefore values k) = valueBefore values (k + 1) := by
  rw [valueBefore, valueBefore, blockAt, Nat.succ_mul, List.take_add, List.getLast?_append]

/-- The blocks that remain are decoded to what is left of the list, by induction on how
many blocks may be decoded. -/
theorem decodeBlocks_eq (hincreasing : values.Pairwise (· < ·)) {blocks : Nat} :
    ∀ {k bytes}, Remaining codec values k bytes →
      values.length ≤ (k + blocks) * Codec.blockSize →
      decodeBlocks codec bytes (valueBefore values k) (values.length - k * Codec.blockSize)
        blocks = .ok (values.drop (k * Codec.blockSize)) := by
  induction blocks with
  | zero =>
      intro k bytes _ hlength
      rw [Nat.add_zero] at hlength
      rw [decodeBlocks, List.drop_of_length_le hlength]
      rfl
  | succ blocks ih =>
      intro k bytes hremaining hlength
      rw [decodeBlocks]
      by_cases hnone : values.length - k * Codec.blockSize = 0
      · rw [if_pos hnone, List.drop_of_length_le (Nat.sub_eq_zero_iff_le.mp hnone)]
        rfl
      · obtain ⟨gaps, consumed, hdecode, hvalues, hrest⟩ :=
          decode_remaining hincreasing hremaining (Nat.lt_of_sub_ne_zero hnone)
        have hnext := ih hrest (by rwa [Nat.add_right_comm])
        rw [Nat.succ_mul, Nat.sub_add_eq] at hnext
        rw [if_neg hnone, hdecode]
        change (do
          let rest ← decodeBlocks codec (bytes.drop consumed)
            ((valuesOf (valueBefore values k) gaps).getLast?.or (valueBefore values k))
            (values.length - k * Codec.blockSize - Codec.blockSize) blocks
          return valuesOf (valueBefore values k) gaps ++ rest : Except Error (List Nat)) = _
        rw [hvalues, getLast?_blockAt_or, hnext, ← List.drop_drop]
        exact congrArg Except.ok (List.take_append_drop _ _)

/-- A payload is decoded wherever its bytes are carried to. -/
theorem decode_eq {v w : BitString} {pos : Nat} {payload : List UInt8}
    (hincreasing : values.Pairwise (· < ·)) (hpayload : encodePayload codec values = .ok payload)
    (hcarries : v.Carries (alignUp pos 8) (w.appendBytes payload) w.size) :
    decode codec v pos values.length = .ok values := by
  obtain ⟨rest, hbytes⟩ := hcarries.bytesFrom (alignUp_mod_eight pos)
  have hcount : values.length ≤ (0 + blockCount values.length) * Codec.blockSize := by
    rw [blockCount]
    simp only [Codec.blockSize]
    omega
  have hblocks := decodeBlocks_eq hincreasing (remaining_zero hpayload rest) hcount
  rw [Nat.zero_mul, Nat.sub_zero, List.drop_zero] at hblocks
  rw [decode, hbytes]
  exact hblocks

/-! ## Nothing to read -/

/-- A cursor over no values stays where it is. -/
theorem follows_nothing {c : Cursor} (hn : c.n = 0) (hend : c.atEnd = c) :
    Follows c ⟨[], c.univ, 0⟩ := by
  have hposition : c.position = 0 := (congrArg Cursor.position hend).symm.trans hn
  have hvalue : c.value = c.univ := (congrArg Cursor.value hend).symm
  refine Follows.of_invariant (r := fun d p => d = c ∧ p = ⟨[], c.univ, 0⟩) ?_ ?_ ⟨rfl, rfl⟩
  · rintro _ _ ⟨rfl, rfl⟩
    refine ⟨hn, hposition, hvalue, congrArg Except.ok ?_⟩
    rw [Cursor.prevValue, if_pos hposition]
    rfl
  · rintro _ _ m ⟨rfl, rfl⟩ hm
    cases m with
    | moveTo position =>
        obtain rfl : position = 0 := Nat.le_zero.mp hm
        refine ⟨_, ?_, rfl, rfl⟩
        change Cursor.moveTo _ 0 = _
        rw [Cursor.moveTo, if_pos hn.symm, if_neg (by omega), hend]
        rfl
    | next => exact absurd hm (Nat.lt_irrefl 0)
    | nextGeq bound =>
        refine ⟨_, ?_, rfl, rfl⟩
        change Cursor.nextGeq _ bound = _
        rw [Cursor.nextGeq, if_pos hn, hend]
        rfl

/-! ## Refinement -/

/-- **Blocks of gaps refine the plain list**, whatever lies before and behind them.  Only
the empty list is not written. -/
theorem blocks_refine (codec : Codec) (params : Params) (config : BuildConfig)
    (hincreasing : values.Pairwise (· < ·)) (hbelow : ∀ v ∈ values, v < univ)
    (huniv : univ ≤ 2 ^ 32) (before : BitString) :
    -- What a bound finds, from any position, is the first value that is not below it.
    (∀ position bound, ((Plain.mk values univ position).nextGeq bound).position =
      values.findIdx (bound ≤ ·)) ∧
    ∃ answer bits, (write codec values univ params config).runFrom before = (answer, bits) ∧
      (values ≠ [] → answer = .ok ()) ∧
      (values = [] → answer = .error (.invalidArgument "values" "sequence is empty") ∧
        bits = before) ∧
      bits.Extends before ∧
      ∀ frozen : BitString, frozen.Extends bits →
        decode codec frozen before.size values.length = .ok values ∧
        ∃ c, openAt codec frozen before.size univ values.length params = .ok c ∧
          Follows c ⟨values, univ, 0⟩ := by
  refine ⟨fun position bound =>
    @Plain.nextGeq_position ⟨values, univ, position⟩ (pairwise_le_of_lt hincreasing) bound, ?_⟩
  by_cases hne : values = []
  · subst hne
    refine ⟨_, before, rfl, fun h => absurd rfl h, fun _ => ⟨rfl, rfl⟩, .refl before,
      fun frozen _ => ⟨rfl, _, rfl, ?_⟩⟩
    exact follows_nothing rfl rfl
  · have hvalues : Ascending values univ := ⟨hne, hincreasing, hbelow, huniv⟩
    obtain ⟨payload, hpayload⟩ := exists_encodePayload codec hvalues
    have hgrown := appendBytes_extends (before.padTo 8) payload
    refine ⟨.ok (), (before.padTo 8).appendBytes payload,
      runFrom_write params config before hvalues hpayload, fun _ => rfl,
      fun h => absurd h hne, hgrown.trans (padTo_extends _ _), fun frozen hfrozen => ?_⟩
    have hcarries : frozen.Carries (alignUp before.size 8)
        ((before.padTo 8).appendBytes payload) (before.padTo 8).size := by
      rw [← size_padTo_eight]
      exact .of_extends hfrozen hgrown.size_le
    exact ⟨decode_eq hincreasing hpayload hcarries, openAt_eq hvalues hpayload hcarries params⟩

/-- Two blocks, behind three bits. -/
theorem blocks_refine_of_range :
    let before := BitString.empty.appendBits 5 3
    let values := List.range 130
    values.Pairwise (· < ·) ∧ (∀ v ∈ values, v < 131) ∧
    ∃ bits c, (write .groupVarint values 131 {} {}).runFrom before = (.ok (), bits) ∧
      decode .groupVarint bits 3 130 = .ok values ∧
      openAt .groupVarint bits 3 131 130 {} = .ok c ∧ Follows c ⟨values, 131, 0⟩ := by
  intro before values
  have hincreasing : values.Pairwise (· < ·) := List.pairwise_lt_range
  have hbelow : ∀ v ∈ values, v < 131 := fun v hv => Nat.lt_succ_of_lt (List.mem_range.mp hv)
  obtain ⟨-, answer, bits, hwrite, hok, -, -, hread⟩ :=
    blocks_refine .groupVarint {} {} hincreasing hbelow (by decide) before
  obtain rfl := hok (List.cons_ne_nil _ _)
  obtain ⟨hdecode, c, hc, hfollows⟩ := hread bits (.refl bits)
  exact ⟨hincreasing, hbelow, bits, c, hwrite, hdecode, hc, hfollows⟩

/-- The empty list increases, and is below any universe; it is refused. -/
theorem empty_not_written :
    ([] : List Nat).Pairwise (· < ·) ∧ (∀ v ∈ ([] : List Nat), v < 10) ∧
    ((write .vbyte [] 10 {} {}).runFrom .empty).1 =
      .error (.invalidArgument "values" "sequence is empty") :=
  ⟨.nil, List.forall_mem_nil _, rfl⟩

end GapBlocks
end Postings
