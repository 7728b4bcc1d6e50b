import Postings.Proofs.Sequence.GapBlocks.Gaps
import Postings.Proofs.Sequence.Law

/-!
# Gaps in blocks keep their lists

A cursor has decoded some blocks, the last of which it keeps.  Where it stands is
told by the number of decoded blocks and the place in the last one; past the end
the last block is the decoded one, so that the last value is known.  A search goes
through the blocks until one whose last value is not below the bound, and halves
its way through that block.
-/

namespace Postings
namespace GapBlocks

open SequenceCursor BitString

/-! ## Searching a block -/

/-- The search by halving counts the values below the bound. -/
theorem partitionPoint_eq {values : List Nat} (hsorted : values.Pairwise (· ≤ ·))
    {bound base count : Nat} (hle : base + count ≤ values.length)
    (hbelow : ∀ i (hi : i < values.length), i < base → values[i] < bound)
    (habove : ∀ hi : base + count < values.length, bound ≤ values[base + count]) :
    partitionPoint values (fun v => decide (v < bound)) base count =
      values.countP (· < bound) := by
  induction count using Nat.strongRecOn generalizing base with
  | _ count ih =>
      rw [partitionPoint]
      by_cases hmany : 1 < count
      · have hmiddle : base + count / 2 < values.length := by omega
        simp only [if_pos hmany, List.getElem?_eq_getElem hmiddle, Option.getD_some,
          decide_eq_true_eq]
        by_cases hlt : values[base + count / 2] < bound
        · rw [if_pos hlt]
          refine ih _ (by omega) (by omega) (fun i hi hib => ?_) fun hi => ?_
          · exact Nat.lt_of_le_of_lt (getElem_le_getElem hsorted (by omega) hmiddle) hlt
          · simp only [show base + count / 2 + (count - count / 2) = base + count by omega]
            exact habove (by omega)
        · rw [if_neg hlt]
          refine ih _ (by omega) (by omega) hbelow fun hi => ?_
          exact Nat.le_trans (Nat.not_lt.mp hlt) (getElem_le_getElem hsorted (by omega) hi)
      · rw [if_neg hmany]
        by_cases hnone : count = 0
        · subst hnone
          rw [if_pos rfl]
          exact (Plain.countP_eq hsorted hle hbelow habove).symm
        · obtain rfl : count = 1 := by omega
          have hbase : base < values.length := by omega
          simp only [if_neg hnone, List.getElem?_eq_getElem hbase, Option.getD_some,
            decide_eq_true_eq]
          by_cases hlt : values[base] < bound
          · rw [if_pos hlt]
            refine (Plain.countP_eq hsorted hle (fun i hi hib => ?_) habove).symm
            exact Nat.lt_of_le_of_lt (getElem_le_getElem hsorted (by omega) hbase) hlt
          · rw [if_neg hlt]
            exact (Plain.countP_eq hsorted (by omega) hbelow fun _ => Nat.not_lt.mp hlt).symm

/-! ## The decoded block -/

/-- The bytes that a cursor walks over are those of a list. -/
structure Over (c : Cursor) (values : List Nat) (univ : Nat) : Prop where
  ascending : Ascending values univ
  n_eq : c.n = values.length
  univ_eq : c.univ = univ
  bytes : Remaining c.codec values 0 c.bytes

/-- The cursor has decoded `k + 1` blocks and keeps block `k`. -/
structure Decoded (c : Cursor) (values : List Nat) (k : Nat) : Prop where
  decoded_eq : c.decoded = k + 1
  in_range : k * Codec.blockSize < values.length
  block_eq : c.block = blockAt values k
  before_eq : c.beforeBlock = valueBefore values k
  rest : Remaining c.codec values (k + 1) c.rest

theorem Over.sorted {c : Cursor} {values : List Nat} {univ : Nat} (h : Over c values univ) :
    values.Pairwise (· ≤ ·) :=
  pairwise_le_of_lt h.ascending.increasing

theorem Over.length_pos {c : Cursor} {values : List Nat} {univ : Nat} (h : Over c values univ) :
    0 < values.length :=
  h.ascending.length_pos

/-- Values fit the width that a block keeps them in. -/
theorem map_mod_blockAt {values : List Nat} {univ : Nat} (h : Ascending values univ) (k : Nat) :
    (blockAt values k).map (· % 2 ^ 32) = blockAt values k := by
  refine (List.map_congr_left fun v hv => Nat.mod_eq_of_lt ?_).trans (List.map_id _)
  exact Nat.lt_of_lt_of_le (h.below v (List.mem_of_mem_drop (List.mem_of_mem_take hv))) h.univ_le

namespace Decoded

variable {c : Cursor} {values : List Nat} {k : Nat}

theorem block_pos (h : Decoded c values k) : 0 < c.block.length := by
  have := h.in_range
  rw [h.block_eq, length_blockAt]
  simp only [Codec.blockSize] at *
  omega

theorem length_block (h : Decoded c values k) :
    c.block.length = min Codec.blockSize (values.length - k * Codec.blockSize) := by
  rw [h.block_eq, length_blockAt]

theorem blockStart_eq (h : Decoded c values k) : c.blockStart = k * Codec.blockSize := by
  rw [Cursor.blockStart, h.decoded_eq, Nat.add_sub_cancel]

theorem getElem_block (h : Decoded c values k) {i : Nat} (hi : i < c.block.length) :
    ∃ hj : k * Codec.blockSize + i < values.length,
      c.block[i] = values[k * Codec.blockSize + i] := by
  have hlen : i < (blockAt values k).length := by rw [← h.block_eq]; exact hi
  obtain ⟨hj, heq⟩ := getElem_blockAt hlen
  refine ⟨hj, ?_⟩
  simp only [h.block_eq]
  exact heq

/-- The last value of the block, by its position in the list. -/
theorem lastOfBlock_eq (h : Decoded c values k) (last : Nat)
    (hlast : last + 1 = k * Codec.blockSize + c.block.length) :
    ∃ hl : last < values.length, c.lastOfBlock = values[last] := by
  have hpos := h.block_pos
  have hne : c.block ≠ [] := List.length_pos_iff.mp hpos
  obtain ⟨hj, heq⟩ := h.getElem_block (show c.block.length - 1 < c.block.length by omega)
  have hindex : k * Codec.blockSize + (c.block.length - 1) = last := by omega
  refine ⟨by omega, ?_⟩
  rw [Cursor.lastOfBlock, List.getLastD_eq_getLast?, List.getLast?_eq_some_getLast hne,
    Option.getD_some, List.getLast_eq_getElem, heq]
  simp only [hindex]

/-- In front of a later block the block is full, and its last value is the value there. -/
theorem valueBefore_succ (h : Decoded c values k)
    (hnext : (k + 1) * Codec.blockSize < values.length) :
    valueBefore values (k + 1) = some c.lastOfBlock := by
  have hlen := h.length_block
  have hsucc := Nat.add_one_mul k Codec.blockSize
  have hfull : c.block.length = Codec.blockSize := by omega
  obtain ⟨hl, heq⟩ := h.lastOfBlock_eq ((k + 1) * Codec.blockSize - 1) (by
    rw [hfull, ← hsucc]
    simp only [Codec.blockSize] at *
    omega)
  rw [valueBefore, List.getLast?_take, if_neg (by simp only [Codec.blockSize] at *; omega),
    List.getElem?_eq_getElem hl, heq]
  rfl

end Decoded

/-! ## Decoding on -/

namespace Cursor

variable {c : Cursor} {values : List Nat} {univ : Nat}

/-- The next block is decoded. -/
theorem decodeNext_eq (h : Over c values univ) {k : Nat} (hdecoded : c.decoded = k)
    (hrest : Remaining c.codec values k c.rest) (hk : k * Codec.blockSize < values.length)
    (hbefore : (if c.decoded = 0 then none else some c.lastOfBlock) = valueBefore values k) :
    ∃ c', c.decodeNext = .ok c' ∧ Over c' values univ ∧ Decoded c' values k ∧ c'.offset = 0 := by
  obtain ⟨gaps, consumed, hdecode, hvalues, hremaining⟩ :=
    decode_remaining h.ascending.increasing hrest hk
  refine ⟨{ c with
    block := (valuesOf (valueBefore values k) gaps).map (· % 2 ^ 32)
    decoded := c.decoded + 1
    rest := c.rest.drop consumed
    beforeBlock := valueBefore values k
    offset := 0 }, ?_, ⟨h.ascending, h.n_eq, h.univ_eq, h.bytes⟩,
    ⟨congrArg (· + 1) hdecoded, hk, ?_, rfl, hremaining⟩, rfl⟩
  · simp only [decodeNext, hbefore]
    rw [hdecoded, h.n_eq, hdecode]
    rfl
  · change (valuesOf (valueBefore values k) gaps).map (· % 2 ^ 32) = _
    rw [hvalues, map_mod_blockAt h.ascending]

theorem advance_eq (h : Over c values univ) {k : Nat} (hc : Decoded c values k)
    (hnext : (k + 1) * Codec.blockSize < values.length) :
    ∃ c', c.advance = .ok c' ∧ Over c' values univ ∧ Decoded c' values (k + 1) ∧
      c'.offset = 0 := by
  obtain ⟨c', hc', hover, hdecoded⟩ := decodeNext_eq h hc.decoded_eq hc.rest hnext (by
    rw [hc.decoded_eq, if_neg (Nat.succ_ne_zero k), hc.valueBefore_succ hnext])
  exact ⟨c', by rw [advance, hc']; rfl, hover, hdecoded⟩

theorem advanceBy_eq {m : Nat} : ∀ {c : Cursor} {k : Nat}, Over c values univ →
    Decoded c values k → (k + m) * Codec.blockSize < values.length →
    ∃ c', c.advanceBy m = .ok c' ∧ Over c' values univ ∧ Decoded c' values (k + m) := by
  induction m with
  | zero =>
      intro c k h hc _
      exact ⟨c, rfl, h, hc⟩
  | succ m ih =>
      intro c k h hc hlast
      have hmul := Nat.mul_le_mul_right Codec.blockSize (show k + 1 ≤ k + (m + 1) by omega)
      obtain ⟨c', hc', hover, hdecoded, -⟩ := advance_eq h hc (by omega)
      obtain ⟨last, hlast, hoverLast, hdecodedLast⟩ :=
        ih hover hdecoded (by rwa [show k + 1 + m = k + (m + 1) by omega])
      refine ⟨last, ?_, hoverLast, by rwa [show k + (m + 1) = k + 1 + m by omega]⟩
      rw [advanceBy, hc']
      exact hlast

/-- Starting over leads to the first block. -/
theorem restart_eq (h : Over c values univ) :
    ∃ c', c.restart = .ok c' ∧ Over c' values univ ∧ Decoded c' values 0 ∧ c'.offset = 0 := by
  have hover : Over { c with decoded := 0, rest := c.bytes, beforeBlock := none } values univ :=
    ⟨h.ascending, h.n_eq, h.univ_eq, h.bytes⟩
  obtain ⟨c', hc', hrest⟩ := decodeNext_eq hover rfl h.bytes
    (by rw [Nat.zero_mul]; exact h.length_pos) (by simp [valueBefore])
  exact ⟨c', by rw [restart, advance, hc']; rfl, hrest⟩

end Cursor

/-! ## Standing -/

/-- The cursor stands where the plain one does: on a value of the decoded block, or
past the end with the last block decoded. -/
structure Tracks (c : Cursor) (p : Plain) : Prop where
  covers : Over c p.values p.univ
  position_eq : c.position = p.position
  position_le : p.position ≤ p.values.length
  value_eq : c.value = p.value
  decoded : ∃ k, Decoded c p.values k ∧
    (p.position < p.values.length →
      c.offset < c.block.length ∧ p.position = k * Codec.blockSize + c.offset) ∧
    (p.position = p.values.length →
      p.values.length = k * Codec.blockSize + c.block.length)

namespace Cursor

variable {c : Cursor} {p : Plain}

theorem tracks_standAt (h : Over c p.values p.univ) {k : Nat} (hc : Decoded c p.values k)
    {offset position : Nat} (hoffset : offset < c.block.length)
    (hposition : position = k * Codec.blockSize + offset) :
    Tracks (c.standAt offset) { p with position } := by
  obtain ⟨hlt, heq⟩ := hc.getElem_block hoffset
  subst hposition
  refine ⟨⟨h.ascending, h.n_eq, h.univ_eq, h.bytes⟩, ?_, Nat.le_of_lt hlt, ?_, k,
    ⟨hc.decoded_eq, hc.in_range, hc.block_eq, hc.before_eq, hc.rest⟩, fun _ => ⟨hoffset, rfl⟩,
    fun heq => absurd heq (Nat.ne_of_lt hlt)⟩
  · change c.blockStart + offset = _
    rw [hc.blockStart_eq]
  · change c.block[offset]?.getD 0 = _
    rw [Plain.value_of_lt hlt, List.getElem?_eq_getElem hoffset, Option.getD_some, heq]

theorem tracks_atEnd (h : Over c p.values p.univ) {k : Nat} (hc : Decoded c p.values k)
    (hlast : p.values.length = k * Codec.blockSize + c.block.length) :
    Tracks c.atEnd { p with position := p.values.length } := by
  refine ⟨⟨h.ascending, h.n_eq, h.univ_eq, h.bytes⟩, h.n_eq, Nat.le_refl _, ?_, k,
    ⟨hc.decoded_eq, hc.in_range, hc.block_eq, hc.before_eq, hc.rest⟩,
    fun hlt => absurd hlt (Nat.lt_irrefl _), fun _ => hlast⟩
  rw [Plain.value_of_le (Nat.le_refl p.values.length)]
  exact h.univ_eq

/-! ## Moving to a position -/

theorem tracks_moveWithin (h : Over c p.values p.univ) {k : Nat} (hc : Decoded c p.values k)
    {position : Nat} (hlt : position < p.values.length) :
    ∃ c', c.moveWithin position = .ok c' ∧ Tracks c' { p with position } := by
  have hdiv := Nat.div_add_mod position Codec.blockSize
  have hmod := Nat.mod_lt position (show 0 < Codec.blockSize by decide)
  rw [Nat.mul_comm] at hdiv
  have hstand : ∀ {c : Cursor}, Over c p.values p.univ →
      Decoded c p.values (position / Codec.blockSize) →
      Tracks (c.standAt (position % Codec.blockSize)) { p with position } := by
    intro c h hc
    refine tracks_standAt h hc ?_ hdiv.symm
    rw [hc.length_block]
    omega
  have hforward : ∀ {c : Cursor} {k : Nat}, Over c p.values p.univ → Decoded c p.values k →
      k ≤ position / Codec.blockSize →
      ∃ c', c.advanceBy (position / Codec.blockSize + 1 - c.decoded) = .ok c' ∧
        Tracks (c'.standAt (position % Codec.blockSize)) { p with position } := by
    intro c k h hc hle
    have hcount : position / Codec.blockSize + 1 - c.decoded = position / Codec.blockSize - k := by
      rw [hc.decoded_eq]
      omega
    have hsum : k + (position / Codec.blockSize - k) = position / Codec.blockSize := by omega
    obtain ⟨c', hc', hover, hdecoded⟩ := advanceBy_eq h hc
      (m := position / Codec.blockSize - k) (by rw [hsum]; omega)
    rw [hsum] at hdecoded
    exact ⟨c', by rw [hcount, hc'], hstand hover hdecoded⟩
  rw [moveWithin]
  by_cases hback : position / Codec.blockSize + 1 < c.decoded
  · obtain ⟨first, hfirst, hoverFirst, hdecodedFirst, -⟩ := restart_eq h
    obtain ⟨c', hc', htracks⟩ := hforward hoverFirst hdecodedFirst (Nat.zero_le _)
    refine ⟨_, ?_, htracks⟩
    simp only [if_pos hback, hfirst]
    change (do
      let c ← first.advanceBy (position / Codec.blockSize + 1 - first.decoded)
      return c.standAt (position % Codec.blockSize) : Except Failure Cursor) = _
    rw [hc']
    rfl
  · obtain ⟨c', hc', htracks⟩ := hforward h hc (by rw [hc.decoded_eq] at hback; omega)
    refine ⟨_, ?_, htracks⟩
    simp only [if_neg hback]
    change (do
      let c ← c.advanceBy (position / Codec.blockSize + 1 - c.decoded)
      return c.standAt (position % Codec.blockSize) : Except Failure Cursor) = _
    rw [hc']
    rfl

theorem tracks_moveTo (h : Tracks c p) {position : Nat} (hp : position ≤ p.values.length) :
    ∃ c', c.moveTo position = .ok c' ∧ Tracks c' { p with position } := by
  obtain ⟨k, hc, -, hend⟩ := h.decoded
  have hn := h.covers.n_eq
  have hpos := h.covers.length_pos
  rw [moveTo]
  by_cases hlast : position = c.n
  · obtain rfl : position = p.values.length := by omega
    rw [if_pos hlast]
    by_cases haway : 0 < c.n ∧ c.position ≠ c.n
    · obtain ⟨c', hc', htracks⟩ := tracks_moveWithin h.covers hc
        (show p.values.length - 1 < p.values.length by omega)
      obtain ⟨k', hdecoded, hin, -⟩ := htracks.decoded
      obtain ⟨hoffset, hposition⟩ := hin (show p.values.length - 1 < p.values.length by omega)
      rw [if_pos haway, hn, hc']
      refine ⟨_, rfl, tracks_atEnd (p := p) htracks.covers hdecoded ?_⟩
      have hlen : c'.block.length = min Codec.blockSize (p.values.length - k' * Codec.blockSize) :=
        hdecoded.length_block
      have hposition' : p.values.length - 1 = k' * Codec.blockSize + c'.offset := hposition
      change p.values.length = _
      omega
    · rw [if_neg haway]
      have hat : p.position = p.values.length := by
        have := h.position_eq
        omega
      exact ⟨_, rfl, tracks_atEnd h.covers hc (hend hat)⟩
  · rw [if_neg hlast]
    exact tracks_moveWithin h.covers hc (by omega)

theorem tracks_next (h : Tracks c p) (hp : p.position < p.values.length) :
    ∃ c', c.next = .ok c' ∧ Tracks c' { p with position := p.position + 1 } := by
  obtain ⟨k, hc, hin, -⟩ := h.decoded
  obtain ⟨hoffset, hposition⟩ := hin hp
  have hn := h.covers.n_eq
  have hlen := hc.length_block
  have hsucc := Nat.add_one_mul k Codec.blockSize
  rw [next, h.position_eq]
  by_cases hlast : p.position + 1 = c.n
  · rw [if_pos hlast]
    have heq : p.position + 1 = p.values.length := by omega
    rw [heq]
    exact ⟨_, rfl, tracks_atEnd h.covers hc (by omega)⟩
  rw [if_neg hlast]
  by_cases hover : c.offset + 1 = c.block.length
  · obtain ⟨c', hc', hover', hdecoded, -⟩ := advance_eq h.covers hc (by omega)
    rw [if_pos hover, hc']
    exact ⟨_, rfl, tracks_standAt hover' hdecoded hdecoded.block_pos (by omega)⟩
  · rw [if_neg hover]
    exact ⟨_, rfl, tracks_standAt h.covers hc (by omega) (by omega)⟩

/-! ## The value before -/

theorem prevValue_eq (h : Tracks c p) : c.prevValue = p.prevValue := by
  obtain ⟨k, hc, hin, hend⟩ := h.decoded
  have hn := h.covers.n_eq
  have hle := h.position_le
  rw [prevValue, h.position_eq]
  by_cases hzero : p.position = 0
  · rw [if_pos hzero, Plain.prevValue, if_pos hzero]
  rw [if_neg hzero, Plain.prevValue_of_pos (by omega) (by omega)]
  by_cases hlast : p.position = c.n
  · obtain ⟨hl, heq⟩ := hc.lastOfBlock_eq (p.position - 1) (by
      have := hend (by omega)
      omega)
    rw [if_pos hlast, heq]
  obtain ⟨hoffset, hposition⟩ := hin (by omega)
  rw [if_neg hlast]
  by_cases hinside : 0 < c.offset
  · obtain ⟨hl, heq⟩ := hc.getElem_block (show c.offset - 1 < c.block.length by omega)
    rw [if_pos hinside, List.getElem?_eq_getElem (by omega), Option.getD_some, heq]
    simp only [show k * Codec.blockSize + (c.offset - 1) = p.position - 1 by omega]
  · have hstart : p.position = k * Codec.blockSize := by omega
    rw [if_neg hinside, hc.before_eq, valueBefore, ← hstart, List.getLast?_take, if_neg hzero,
      List.getElem?_eq_getElem (show p.position - 1 < p.values.length by omega)]
    rfl

/-! ## Searching -/

/-- A bound that the decoded block reaches is found in it. -/
theorem tracks_locate (h : Over c p.values p.univ) {k : Nat} (hc : Decoded c p.values k)
    {bound : Nat} (hoffset : c.offset ≤ c.block.length)
    (hbelow : ∀ i (hi : i < p.values.length), i < k * Codec.blockSize + c.offset →
      p.values[i] < bound)
    (hreach : bound ≤ c.lastOfBlock) : Tracks (c.locate bound) (p.nextGeq bound) := by
  have hpos := hc.block_pos
  have hsorted : c.block.Pairwise (· ≤ ·) := by
    rw [hc.block_eq]
    exact (h.sorted.sublist (List.drop_sublist _ _)).sublist (List.take_sublist _ _)
  have hpoint : partitionPoint c.block (fun v => decide (v < bound)) c.offset
      (c.block.length - c.offset) = c.block.countP (· < bound) := by
    refine partitionPoint_eq hsorted (by omega) (fun i hi hlt => ?_) fun hi => by omega
    obtain ⟨hj, heq⟩ := hc.getElem_block hi
    rw [heq]
    exact hbelow _ hj (by omega)
  obtain ⟨hl, hlast⟩ := hc.lastOfBlock_eq (k * Codec.blockSize + (c.block.length - 1)) (by omega)
  have hlt : c.block.countP (· < bound) < c.block.length := by
    obtain ⟨hj, heq⟩ := hc.getElem_block (show c.block.length - 1 < c.block.length by omega)
    have := (not_congr (Plain.getElem_lt_iff hsorted bound
      (show c.block.length - 1 < c.block.length by omega))).mp (by omega)
    have hle : c.block.countP (· < bound) ≤ c.block.length := List.countP_le_length
    omega
  obtain ⟨hj, heq⟩ := hc.getElem_block hlt
  have hfound : p.values.countP (· < bound) =
      k * Codec.blockSize + c.block.countP (· < bound) := by
    refine Plain.countP_eq h.sorted (Nat.le_of_lt hj) (fun i hi hib => ?_) fun _ => ?_
    · rcases Nat.lt_or_ge i (k * Codec.blockSize) with hearlier | hhere
      · exact hbelow i hi (by omega)
      · obtain ⟨d, rfl⟩ := Nat.exists_eq_add_of_le hhere
        obtain ⟨hj', heq'⟩ := hc.getElem_block (show d < c.block.length by omega)
        rw [← heq']
        exact (Plain.getElem_lt_iff hsorted bound _).mpr (by omega)
    · rw [← heq]
      exact Nat.not_lt.mp ((not_congr (Plain.getElem_lt_iff hsorted bound hlt)).mpr
        (Nat.lt_irrefl _))
  rw [locate, hpoint]
  exact tracks_standAt h hc hlt hfound

/-- The search through the blocks, by induction on how many are left. -/
theorem tracks_seek {bound left : Nat} : ∀ {c : Cursor} {k : Nat}, Over c p.values p.univ →
    Decoded c p.values k → (k + left) * Codec.blockSize < p.values.length →
    p.values.length ≤ (k + left + 1) * Codec.blockSize → c.offset ≤ c.block.length →
    (∀ i (hi : i < p.values.length), i < k * Codec.blockSize + c.offset → p.values[i] < bound) →
    ∃ c', c.seek bound left = .ok c' ∧ Tracks c' (p.nextGeq bound) := by
  induction left with
  | zero =>
      intro c k h hc hin hlast hoffset hbelow
      rw [seek]
      by_cases hreach : bound ≤ c.lastOfBlock
      · rw [if_pos hreach]
        exact ⟨_, rfl, tracks_locate h hc hoffset hbelow hreach⟩
      · have hlen := hc.length_block
        have hsucc := Nat.add_one_mul k Codec.blockSize
        rw [Nat.add_zero] at hlast
        have hend : p.values.length = k * Codec.blockSize + c.block.length := by
          have := hc.in_range
          omega
        have hpos := h.length_pos
        obtain ⟨hl, heq⟩ := hc.lastOfBlock_eq (p.values.length - 1) (by omega)
        have hfound : p.values.countP (· < bound) = p.values.length := by
          refine Plain.countP_eq h.sorted (Nat.le_refl _) (fun i hi _ => ?_)
            fun hi => absurd hi (Nat.lt_irrefl _)
          have := getElem_le_getElem h.sorted (show i ≤ p.values.length - 1 by omega) hl
          omega
        rw [if_neg hreach, Plain.nextGeq, hfound]
        exact ⟨_, rfl, tracks_atEnd h hc hend⟩
  | succ left ih =>
      intro c k h hc hin hlast hoffset hbelow
      rw [seek]
      by_cases hreach : bound ≤ c.lastOfBlock
      · rw [if_pos hreach]
        exact ⟨_, rfl, tracks_locate h hc hoffset hbelow hreach⟩
      · have hmul := Nat.mul_le_mul_right Codec.blockSize (show k + 1 ≤ k + (left + 1) by omega)
        obtain ⟨c', hc', hover, hdecoded, hzero⟩ := advance_eq h hc (by omega)
        have hlen := hc.length_block
        have hsucc := Nat.add_one_mul k Codec.blockSize
        have hfull : c.block.length = Codec.blockSize := by omega
        obtain ⟨hl, heq⟩ := hc.lastOfBlock_eq ((k + 1) * Codec.blockSize - 1) (by
          simp only [Codec.blockSize] at *
          omega)
        rw [if_neg hreach, hc']
        refine ih hover hdecoded ?_ ?_ (by omega) fun i hi hlt => ?_
        · rwa [show k + 1 + left = k + (left + 1) by omega]
        · rwa [show k + 1 + left + 1 = k + (left + 1) + 1 by omega]
        · have := getElem_le_getElem h.sorted (show i ≤ (k + 1) * Codec.blockSize - 1 by omega) hl
          omega

theorem blocksLeft_bounds (h : Over c p.values p.univ) {k : Nat} (hc : Decoded c p.values k) :
    (k + c.blocksLeft) * Codec.blockSize < p.values.length ∧
      p.values.length ≤ (k + c.blocksLeft + 1) * Codec.blockSize := by
  have hin := hc.in_range
  have hpos := h.length_pos
  rw [blocksLeft, blockCount, h.n_eq, hc.decoded_eq]
  simp only [Codec.blockSize] at *
  omega

theorem tracks_nextGeq (h : Tracks c p) (bound : Nat) :
    ∃ c', c.nextGeq bound = .ok c' ∧ Tracks c' (p.nextGeq bound) := by
  obtain ⟨k, hc, hin, hend⟩ := h.decoded
  have hn := h.covers.n_eq
  have hpos := h.covers.length_pos
  have hle := h.position_le
  rw [nextGeq, if_neg (by omega), prevValue_eq h, h.position_eq]
  by_cases hback : 0 < p.position ∧ bound ≤ p.prevValue
  · -- The bound is behind: start over.
    obtain ⟨first, hfirst, hover, hdecoded, -⟩ := restart_eq h.covers
    have hstand := tracks_standAt (p := p) hover hdecoded hdecoded.block_pos
      (show 0 = 0 * Codec.blockSize + 0 by simp)
    have hseek := blocksLeft_bounds (c := first.standAt 0) hstand.covers (k := 0)
      ⟨hdecoded.decoded_eq, hdecoded.in_range, hdecoded.block_eq, hdecoded.before_eq,
        hdecoded.rest⟩
    obtain ⟨c', hc', htracks⟩ := tracks_seek (p := p) (c := first.standAt 0)
      hstand.covers (k := 0) ⟨hdecoded.decoded_eq, hdecoded.in_range, hdecoded.block_eq,
        hdecoded.before_eq, hdecoded.rest⟩ hseek.1 hseek.2 (Nat.zero_le _)
      fun i hi hlt => absurd hlt (by simp [standAt])
    refine ⟨c', ?_, htracks⟩
    simp only [if_pos hback, hfirst]
    change (if (first.standAt 0).position = (first.standAt 0).n then _ else _) = _
    rw [if_neg, hc']
    rw [hstand.position_eq, hstand.covers.n_eq]
    exact Nat.ne_of_lt hpos
  · have hbelow : ∀ i (hi : i < p.values.length), i < p.position → p.values[i] < bound := by
      intro i hi hlt
      have hprev := Plain.prevValue_of_pos (p := p) (by omega) (by omega)
      have := getElem_le_getElem h.covers.sorted (show i ≤ p.position - 1 by omega) (by omega)
      omega
    simp only [if_neg hback]
    change ∃ c', (if c.position = c.n then _ else _) = _ ∧ _
    by_cases hlast : c.position = c.n
    · have hat : p.position = p.values.length := by
        have := h.position_eq
        omega
      have hfound : p.values.countP (· < bound) = p.values.length :=
        Plain.countP_eq h.covers.sorted (Nat.le_refl _) (fun i hi _ => hbelow i hi (by omega))
          fun hi => absurd hi (Nat.lt_irrefl _)
      rw [if_pos hlast, Plain.nextGeq, hfound]
      exact ⟨_, rfl, tracks_atEnd h.covers hc (hend hat)⟩
    · have hlt : p.position < p.values.length := by
        have := h.position_eq
        omega
      obtain ⟨hoffset, hposition⟩ := hin hlt
      have hseek := blocksLeft_bounds h.covers hc
      rw [if_neg hlast]
      exact tracks_seek h.covers hc hseek.1 hseek.2 (Nat.le_of_lt hoffset)
        fun i hi hlt => hbelow i hi (by omega)

/-- A cursor over the blocks of a list follows it. -/
theorem follows_of_tracks (h : Tracks c p) : Follows c p := by
  refine Follows.of_invariant (r := Tracks) (fun c p h => ?_) (fun c p m h hm => ?_) h
  · exact ⟨h.covers.n_eq, h.position_eq, h.value_eq, congrArg Except.ok (prevValue_eq h)⟩
  · cases m with
    | moveTo position => exact tracks_moveTo h hm
    | next => exact tracks_next h hm
    | nextGeq bound => exact tracks_nextGeq h bound

end Cursor

/-! ## The promise -/

variable {codec : Codec}

/-- A payload opens at its first value wherever its bytes are carried to. -/
theorem openAt_eq {v w : BitString} {pos univ : Nat} {values : List Nat} {payload : List UInt8}
    (h : Ascending values univ) (hpayload : encodePayload codec values = .ok payload)
    (hcarries : v.Carries (alignUp pos 8) (w.appendBytes payload) w.size) (params : Params) :
    ∃ c, openAt codec v pos univ values.length params = .ok c ∧ Follows c ⟨values, univ, 0⟩ := by
  obtain ⟨rest, hbytes⟩ := hcarries.bytesFrom (alignUp_mod_eight pos)
  have hpos := h.length_pos
  have hremaining := remaining_zero hpayload rest
  have hover : Over ⟨codec, payload ++ rest, values.length, univ, [], 0, payload ++ rest, none, 0,
      values.length, univ⟩ values univ := ⟨h, rfl, rfl, hremaining⟩
  obtain ⟨c, hc, hover', hdecoded, -⟩ := Cursor.decodeNext_eq hover rfl hremaining
    (by rw [Nat.zero_mul]; exact hpos) (by simp [valueBefore])
  refine ⟨c.standAt 0, ?_, Cursor.follows_of_tracks
    (Cursor.tracks_standAt (p := ⟨values, univ, 0⟩) hover' hdecoded hdecoded.block_pos (by simp))⟩
  simp only [openAt, hbytes, if_neg (show values.length ≠ 0 by omega), hc]
  rfl

theorem runFrom_write {values : List Nat} {univ : Nat} {payload : List UInt8} (params : Params)
    (config : BuildConfig) (before : BitString) (h : Ascending values univ)
    (hpayload : encodePayload codec values = .ok payload) :
    (write codec values univ params config).runFrom before =
      (.ok (), (before.padTo 8).appendBytes payload) := by
  rw [write, Attempt.runFrom_bind, Attempt.runFrom_lift, checkMonotone_eq_ok.mpr h]
  simp only
  rw [Attempt.runFrom_bind, Attempt.runFrom_lift, hpayload]
  rfl

/-- Gaps in blocks keep every ascending list. -/
theorem faithful (codec : Codec) (params : Params) (config : BuildConfig) :
    (format codec).Faithful params config := by
  have hwrite : ∀ {values univ}, Ascending values univ → ∀ before, ∃ payload,
      encodePayload codec values = .ok payload ∧
      ((format codec).write values univ params config).runFrom before =
        (.ok (), (before.padTo 8).appendBytes payload) := by
    intro values univ h before
    obtain ⟨payload, hpayload⟩ := exists_encodePayload codec h
    exact ⟨payload, hpayload, runFrom_write params config before h hpayload⟩
  refine ⟨fun h before => ?_, fun {values univ} h {before bits} hw => ?_,
    fun {values univ} h {before bits} hw => ?_⟩
  · obtain ⟨payload, -, hw⟩ := hwrite h before
    exact ⟨_, hw⟩
  · obtain ⟨payload, -, hw'⟩ := hwrite h before
    rw [hw'] at hw
    obtain rfl := congrArg Prod.snd hw
    exact (appendBytes_extends _ _).trans (padTo_extends _ _)
  · obtain ⟨payload, hpayload, hw'⟩ := hwrite h before
    rw [hw'] at hw
    obtain rfl := congrArg Prod.snd hw
    intro v pos hpos hcarries
    have haligned := hcarries.align hpos (by
      rw [← size_padTo_eight]
      exact (appendBytes_extends _ _).size_le)
    rw [← size_padTo_eight] at haligned
    exact openAt_eq h hpayload haligned params

theorem growsWithin (codec : Codec) (params : Params) (config : BuildConfig) :
    (format codec).GrowsWithin params config 79 := by
  refine ⟨fun {values univ} h {before bits} hw => ?_⟩
  obtain ⟨payload, hpayload⟩ := exists_encodePayload codec h
  obtain rfl := congrArg Prod.snd ((runFrom_write params config before h hpayload).symm.trans hw)
  have hbytes := length_encodePayload_le hpayload
  have hpad := alignUp_eight_le before.size
  have hpos := h.length_pos
  have hlen := h.length_le
  change ((before.padTo 8).appendBytes payload).size ≤ _
  rw [size_appendBytes, size_padTo_eight]
  omega

end GapBlocks
end Postings
