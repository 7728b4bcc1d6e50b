import Postings.Proofs.Sequence.Adaptive

/-!
# Which of three encodings is chosen

What a list is stored as follows from its length, its universe and the bytes of its
blocks.  A full list takes no room.  Otherwise it takes a byte that names the encoding,
and then as much as the smaller of bitmap and blocks; when they are of one size, it is
the bitmap.  The reader finds the same encoding, and follows the list in any of them.

Only the empty list is refused; nothing is written of it.
-/

namespace Postings
namespace Adaptive

open SequenceCursor BitString

variable {codec : Codec} {values : List Nat} {univ : Nat}

/-- What a region opens as is told by the number of values and by its first byte. -/
theorem shape_eq_of_openAt {v : BitString} {pos n : Nat} {params : Params} {c : Cursor}
    (h : openAt codec v pos univ n params = .ok c) :
    c.shape =
      if n = univ then .allOnes
      else if v.getBits (alignUp pos 8) 8 = bitmapTag then .bitmap
      else .blocks := by
  rw [openAt] at h
  by_cases hfull : n = univ
  · rw [if_pos hfull] at h ⊢
    obtain rfl := Except.ok.inj h
    rfl
  rw [if_neg hfull] at h ⊢
  obtain ⟨-, -, h⟩ := exists_of_bind_eq_ok h
  by_cases hbitmap : v.getBits (alignUp pos 8) 8 = bitmapTag
  · simp only [if_pos hbitmap] at h ⊢
    obtain ⟨_, -, h⟩ := exists_of_bind_eq_ok h
    obtain rfl := Except.ok.inj h
    rfl
  simp only [if_neg hbitmap] at h ⊢
  by_cases hblocks : v.getBits (alignUp pos 8) 8 = blocksTag
  · rw [if_pos hblocks] at h
    obtain ⟨_, -, h⟩ := exists_of_bind_eq_ok h
    obtain rfl := Except.ok.inj h
    rfl
  · rw [if_neg hblocks] at h
    cases h

/-- The bitmap is taken when it has no more bits than the blocks. -/
theorem bitmap_le_iff (univ : Nat) (payload : List UInt8) :
    (univ + 7) / 8 ≤ payload.length ↔ alignUp univ 8 ≤ 8 * payload.length := by
  rw [alignUp]
  omega

/-- How much is written of a list. -/
theorem size_of_write (h : Ascending values univ) {payload : List UInt8}
    (hpayload : GapBlocks.encodePayload codec values = .ok payload) (params : Params)
    (config : BuildConfig) {before bits : BitString}
    (hwrite : (write codec values univ params config).runFrom before = (.ok (), bits)) :
    bits.size = alignUp before.size 8 +
      if values.length = univ then 0 else 8 + min (alignUp univ 8) (8 * payload.length) := by
  rw [runFrom_write h hpayload] at hwrite
  obtain rfl := congrArg Prod.snd hwrite
  simp only [bitmap_le_iff]
  by_cases hfull : values.length = univ
  · rw [if_pos hfull, if_pos hfull, size_padTo_eight, Nat.add_zero]
  rw [if_neg hfull, if_neg hfull]
  have haligned := alignUp_mod_eight before.size
  by_cases hbitmap : alignUp univ 8 ≤ 8 * payload.length
  · rw [if_pos hbitmap, size_appendBitmap _ h.below, size_padTo_eight, Nat.min_eq_left hbitmap]
    simp only [alignUp] at *
    omega
  · rw [if_neg hbitmap, size_appendBytes, size_appendBits, size_padTo_eight,
      Nat.min_eq_right (Nat.le_of_not_le hbitmap)]
    omega

/-- What was written opens as what was chosen. -/
theorem shape_of_write (h : Ascending values univ) {payload : List UInt8}
    (hpayload : GapBlocks.encodePayload codec values = .ok payload) (params : Params)
    (config : BuildConfig) {before bits frozen : BitString}
    (hwrite : (write codec values univ params config).runFrom before = (.ok (), bits))
    (hfrozen : frozen.Extends bits) {c : Cursor}
    (hopen : openAt codec frozen before.size univ values.length params = .ok c) :
    c.shape =
      if values.length = univ then .allOnes
      else if alignUp univ 8 ≤ 8 * payload.length then .bitmap
      else .blocks := by
  rw [shape_eq_of_openAt hopen]
  by_cases hfull : values.length = univ
  · rw [if_pos hfull, if_pos hfull]
  rw [if_neg hfull, if_neg hfull]
  rw [runFrom_write h hpayload, if_neg hfull] at hwrite
  have hbits := congrArg Prod.snd hwrite
  simp only [bitmap_le_iff] at hbits
  have htag : ∀ {tag : Nat}, bits.Extends ((before.padTo 8).appendBits tag 8) → tag < 2 ^ 8 →
      frozen.getBits (alignUp before.size 8) 8 = tag := by
    intro tag hgrown hlt
    rw [← size_padTo_eight]
    exact (read_tag (.of_extends hfrozen ((hgrown.trans (appendBits_extends _ _ _)).size_le))
      hgrown hlt).2
  by_cases hbitmap : alignUp univ 8 ≤ 8 * payload.length
  · rw [if_pos hbitmap] at hbits ⊢
    rw [if_pos (htag (hbits ▸ appendBitmap_extends _ h.below) (by decide))]
  · rw [if_neg hbitmap] at hbits ⊢
    rw [htag (hbits ▸ appendBytes_extends _ _) (by decide), if_neg (by decide)]

/-! ## Refinement -/

/-- **The cheapest of three encodings refines the plain list**, whatever lies before and
behind it.  Only the empty list is not written. -/
theorem chosen_encoding_refines (codec : Codec) (params : Params) (config : BuildConfig)
    (hincreasing : values.Pairwise (· < ·)) (hbelow : ∀ v ∈ values, v < univ)
    (huniv : univ ≤ 2 ^ 32) (before : BitString) :
    -- What a bound finds, from any position, is the first value that is not below it.
    (∀ position bound, ((Plain.mk values univ position).nextGeq bound).position =
      values.findIdx (bound ≤ ·)) ∧
    (values = [] → (write codec values univ params config).runFrom before =
      (.error (.invalidArgument "values" "sequence is empty"), before)) ∧
    (values ≠ [] → ∃ payload bits, GapBlocks.encodePayload codec values = .ok payload ∧
      (write codec values univ params config).runFrom before = (.ok (), bits) ∧
      bits.Extends before ∧
      bits.size = alignUp before.size 8 +
        (if values.length = univ then 0 else 8 + min (alignUp univ 8) (8 * payload.length)) ∧
      ∀ frozen : BitString, frozen.Extends bits →
        ∃ c, openAt codec frozen before.size univ values.length params = .ok c ∧
          c.shape =
            (if values.length = univ then .allOnes
            else if alignUp univ 8 ≤ 8 * payload.length then .bitmap
            else .blocks) ∧
          Follows c ⟨values, univ, 0⟩) := by
  refine ⟨fun position bound =>
    @Plain.nextGeq_position ⟨values, univ, position⟩ (pairwise_le_of_lt hincreasing) bound,
    fun hnil => ?_, fun hne => ?_⟩
  · subst hnil
    rfl
  · have hvalues : Ascending values univ := ⟨hne, hincreasing, hbelow, huniv⟩
    have hfaithful := faithful codec params config
    obtain ⟨payload, hpayload⟩ := GapBlocks.exists_encodePayload codec hvalues
    obtain ⟨bits, hwrite⟩ := hfaithful.accepts hvalues before
    have hgrown := hfaithful.grows hvalues hwrite
    refine ⟨payload, bits, hpayload, hwrite, hgrown,
      size_of_write hvalues hpayload params config hwrite, fun frozen hfrozen => ?_⟩
    obtain ⟨c, hopen, hfollows⟩ := hfaithful.opens hvalues hwrite frozen before.size rfl
      (.of_extends hfrozen hgrown.size_le)
    exact ⟨c, hopen, shape_of_write hvalues hpayload params config hwrite hfrozen hopen, hfollows⟩

/-- A tie: blocks and bitmap take two bytes each, behind three bits. -/
theorem chosen_encoding_refines_of_tie :
    let before := BitString.empty.appendBits 5 3
    [1, 3].Pairwise (· < ·) ∧ (∀ v ∈ [1, 3], v < 16) ∧
    ∃ bits c, (write .vbyte [1, 3] 16 {} {}).runFrom before = (.ok (), bits) ∧
      bits.size = 8 + (8 + 16) ∧
      openAt .vbyte (bits.appendBits 7 3) 3 16 2 {} = .ok c ∧ c.shape = .bitmap ∧
      Follows c ⟨[1, 3], 16, 0⟩ := by
  intro before
  have hincreasing : [1, 3].Pairwise (· < ·) := by decide
  have hbelow : ∀ v ∈ [1, 3], v < 16 := by decide
  obtain ⟨-, -, hwritten⟩ :=
    chosen_encoding_refines .vbyte {} {} hincreasing hbelow (by decide) before
  obtain ⟨payload, bits, hpayload, hwrite, -, hsize, hread⟩ := hwritten (List.cons_ne_nil _ _)
  obtain ⟨c, hopen, hshape, hfollows⟩ := hread _ (appendBits_extends bits 7 3)
  have hlength : payload.length = 2 := by
    have hbytes : GapBlocks.encodePayload .vbyte [1, 3] = .ok [1, 1] := by decide +kernel
    obtain rfl := Except.ok.inj (hpayload.symm.trans hbytes)
    rfl
  have haligned : alignUp before.size 8 = 8 := by decide +kernel
  rw [hlength, haligned] at hsize
  rw [hlength] at hshape
  exact ⟨hincreasing, hbelow, bits, c, hwrite, hsize.trans (by decide), hopen, hshape, hfollows⟩

/-- The empty list increases, and is below any universe; it has no encoding. -/
theorem empty_has_no_encoding :
    ([] : List Nat).Pairwise (· < ·) ∧ (∀ v ∈ ([] : List Nat), v < 10) ∧
    ((write .vbyte [] 10 {} {}).runFrom .empty).1 =
      .error (.invalidArgument "values" "sequence is empty") :=
  ⟨.nil, List.forall_mem_nil _, rfl⟩

end Adaptive
end Postings
