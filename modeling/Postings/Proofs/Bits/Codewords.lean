import Postings.Proofs.Bits.Universal

/-!
# What the readers of codes accept

Where a codeword stands, its reader answers with the number and stops behind it.  That the
readers accept nothing else is true as long as the run of zeros that begins a code is shorter
than `2 ^ 32`: the length of the run is cut to 32 bits before it is compared with the largest
that a number can have, so a longer run may pass for a short one (`long_run_is_read_as_short`).
What stands there is no codeword (`accepts_codewords_iff`).
-/

namespace Postings
namespace BitString

variable {v : BitString} {pos mid stop : Nat}

/-! ## Bits of a range -/

/-- The bits in a range. -/
def between (v : BitString) (pos stop : Nat) : List Bool :=
  (v.toList.drop pos).take (stop - pos)

theorem length_between (h : stop ≤ v.size) : (v.between pos stop).length = stop - pos := by
  simp [between]
  omega

theorem between_append (hpos : pos ≤ mid) (hmid : mid ≤ stop) :
    v.between pos stop = v.between pos mid ++ v.between mid stop := by
  have hlen : stop - pos = (mid - pos) + (stop - mid) := by omega
  rw [between, between, between, hlen, List.take_add, List.drop_drop, Nat.add_sub_cancel' hpos]

theorem getElem?_between (i : Nat) :
    (v.between pos stop)[i]? =
      if i < stop - pos ∧ pos + i < v.size then some (v.bit (pos + i)) else none := by
  rw [between, List.getElem?_take, List.getElem?_drop, toList_getElem?]
  by_cases hi : i < stop - pos <;> simp [hi]

/-- A field, as the bits of its number. -/
theorem between_field {len : Nat} (hlen : len ≤ 64) (hfits : pos + len ≤ v.size) :
    v.between pos (pos + len) = lowFirst len (v.getBits pos len) := by
  rw [lowFirst_getBits v hlen hfits, between, Nat.add_sub_cancel_left]

/-- A run of zeros and the one that ends it. -/
theorem between_run {one : Nat} (h : v.nextOne pos = some one) :
    v.between pos (one + 1) = List.replicate (one - pos) false ++ [true] := by
  obtain ⟨hle, hset, hclear⟩ := nextOne_eq_some.mp h
  have hlt := lt_size_of_bit hset
  apply List.ext_getElem?
  intro i
  rw [getElem?_between, List.getElem?_append, List.length_replicate, List.getElem?_replicate]
  rcases Nat.lt_trichotomy i (one - pos) with hi | hi | hi
  · rw [if_pos (by omega), if_pos hi, if_pos hi, hclear _ (by omega) (by omega)]
  · rw [if_pos (by omega), if_neg (by omega), hi, Nat.sub_self, Nat.add_sub_cancel' hle, hset]
    rfl
  · rw [if_neg (by omega), if_neg (by omega), List.getElem?_eq_none (by simp; omega)]

/-! ## Codes that stand in a range -/

/-- The bits of a range are those that a writer appends, whatever it appends them to. -/
structure Stands (v : BitString) (write : BitString → BitString) (pos stop : Nat) : Prop where
  le : pos ≤ stop
  fits : stop ≤ v.size
  toList_eq : ∀ w, (write w).toList = w.toList ++ v.between pos stop

/-- The run of zeros that begins at a position has a length of 32 bits. -/
def ShortRun (v : BitString) (pos : Nat) : Prop :=
  ∀ one, v.nextOne pos = some one → one - pos < 2 ^ 32

theorem stands_iff {write : BitString → BitString} {word : List Bool}
    (hword : ∀ w, (write w).toList = w.toList ++ word) (hpos : pos ≤ stop) (hstop : stop ≤ v.size) :
    v.Stands write pos stop ↔ v.between pos stop = word := by
  constructor
  · intro h
    exact List.append_cancel_left ((h.toList_eq empty).symm.trans (hword empty))
  · intro h
    exact ⟨hpos, hstop, fun w => by rw [h, hword]⟩

/-- What stands there is carried. -/
theorem Stands.carries {write : BitString → BitString} (h : v.Stands write pos stop) :
    v.Carries pos (write empty) empty.size ∧ pos + ((write empty).size - empty.size) = stop := by
  have hbits : (write empty).toList = v.between pos stop := h.toList_eq empty
  have hsize : (write empty).size = stop - pos := by
    rw [← length_toList, hbits, length_between h.fits]
  have hle := h.le
  have hfits := h.fits
  refine ⟨⟨by rw [hsize, size_empty]; omega, fun i hi => ?_⟩, by rw [hsize, size_empty]; omega⟩
  rw [size_empty, Nat.zero_add] at hi ⊢
  have hget : (write empty).toList[i]? = (v.between pos stop)[i]? := by rw [hbits]
  rw [toList_getElem?, if_pos hi, getElem?_between, if_pos (by omega)] at hget
  exact (Option.some.inj hget).symm

/-! ## What is read -/

theorem of_runFrom_skipZeros {l : Nat} (h : v.skipZeros.runFrom pos = (.ok l, mid)) :
    ∃ one, v.nextOne pos = some one ∧ l = (one - pos) % 2 ^ 32 ∧ mid = one + 1 := by
  rw [skipZeros, Attempt.runFrom_bind, Attempt.runFrom_get] at h
  cases hone : v.nextOne pos with
  | none =>
      simp only [hone] at h
      cases h
  | some one =>
      simp only [hone] at h
      cases h
      exact ⟨one, rfl, rfl, rfl⟩

theorem of_runFrom_take {len bits : Nat} (h : (v.take len).runFrom mid = (.ok bits, stop)) :
    stop = mid + len ∧ stop ≤ v.size ∧ bits = v.getBits mid len := by
  by_cases hfits : mid + len ≤ v.size
  · rw [runFrom_take_of_fits hfits] at h
    cases h
    exact ⟨rfl, hfits, rfl⟩
  · simp only [take, checkRange, if_neg hfits, Attempt.runFrom_bind, Attempt.runFrom_get,
      Attempt.runFrom_lift] at h
    cases h

theorem of_runFrom_takeBelow {code : String} {l n : Nat}
    (h : (v.takeBelow code l).runFrom mid = (.ok n, stop)) :
    l ≤ 63 ∧ stop = mid + l ∧ stop ≤ v.size ∧ n + 1 = 2 ^ l + v.getBits mid l := by
  by_cases hl : 63 < l
  · rw [takeBelow, if_pos hl] at h
    cases h
  rw [takeBelow, if_neg hl] at h
  obtain ⟨bits, next, htake, hpure⟩ := Attempt.of_runFrom_bind h
  obtain ⟨hnext, hfits, rfl⟩ := of_runFrom_take htake
  cases hpure
  have hpow := Nat.two_pow_pos l
  exact ⟨by omega, hnext, hfits, by omega⟩

/-- What is put together has the highest bit that was put there, and the bits below it. -/
theorem bitsBelow_put {l low x : Nat} (hlow : low < 2 ^ l) (hx : x = 2 ^ l + low) :
    x.log2 = l ∧ bitsBelow x = lowFirst l low := by
  have hlog : x.log2 = l := by
    rw [Nat.log2_eq_iff (by have := Nat.two_pow_pos l; omega), Nat.pow_succ]
    omega
  refine ⟨hlog, ?_⟩
  rw [bitsBelow, hlog, hx, Nat.add_sub_cancel_left]

/-- An accepted gamma code is a codeword exactly if the run of zeros is short. -/
theorem between_gamma {n : Nat} (h : v.gamma.runFrom pos = (.ok n, stop)) :
    pos ≤ stop ∧ stop ≤ v.size ∧ (v.between pos stop = gammaWord n ↔ v.ShortRun pos) := by
  obtain ⟨l, mid, hzeros, hbelow⟩ := Attempt.of_runFrom_bind h
  obtain ⟨one, hone, hl, rfl⟩ := of_runFrom_skipZeros hzeros
  obtain ⟨hmost, rfl, hfits, hn⟩ := of_runFrom_takeBelow hbelow
  have hle := (nextOne_eq_some.mp hone).1
  obtain ⟨hlog, hbits⟩ := bitsBelow_put (v.getBits_lt _ l) hn
  have hsplit : v.between pos (one + 1 + l) =
      List.replicate (one - pos) false ++ [true] ++ bitsBelow (n + 1) := by
    rw [between_append (show pos ≤ one + 1 by omega) (Nat.le_add_right _ l), between_run hone,
      between_field (by omega) hfits, hbits]
  have hrun : v.ShortRun pos ↔ one - pos = l := by
    constructor
    · intro hshort
      rw [hl, Nat.mod_eq_of_lt (hshort one hone)]
    · intro heq one' hone'
      rw [hone] at hone'
      cases hone'
      omega
  refine ⟨by omega, hfits, ?_⟩
  rw [hsplit, gammaWord, hlog, hrun, List.append_cancel_right_eq, List.append_cancel_right_eq,
    List.replicate_inj]
  simp

theorem between_delta {n : Nat} (h : v.delta.runFrom pos = (.ok n, stop)) :
    pos ≤ stop ∧ stop ≤ v.size ∧ (v.between pos stop = deltaWord n ↔ v.ShortRun pos) := by
  obtain ⟨l, mid, hgamma, hbelow⟩ := Attempt.of_runFrom_bind h
  obtain ⟨hle, -, hword⟩ := between_gamma hgamma
  obtain ⟨hmost, rfl, hfits, hn⟩ := of_runFrom_takeBelow hbelow
  obtain ⟨hlog, hbits⟩ := bitsBelow_put (v.getBits_lt _ l) hn
  have hsplit : v.between pos (mid + l) = v.between pos mid ++ bitsBelow (n + 1) := by
    rw [between_append hle (Nat.le_add_right _ l), between_field (by omega) hfits, hbits]
  refine ⟨by omega, hfits, ?_⟩
  rw [hsplit, deltaWord, hlog, List.append_cancel_right_eq, hword]

theorem gamma_stands_iff {n : Nat} (h : v.gamma.runFrom pos = (.ok n, stop)) :
    v.Stands (appendGamma · n) pos stop ↔ v.ShortRun pos := by
  obtain ⟨hle, hfits, hword⟩ := between_gamma h
  have hn := (Packed.gamma_answers v).run h
  rw [stands_iff (fun w => toList_appendGamma w hn) hle hfits, hword]

theorem delta_stands_iff {n : Nat} (h : v.delta.runFrom pos = (.ok n, stop)) :
    v.Stands (appendDelta · n) pos stop ↔ v.ShortRun pos := by
  obtain ⟨hle, hfits, hword⟩ := between_delta h
  have hn := (Packed.delta_answers v).run h
  rw [stands_iff (fun w => toList_appendDelta w hn) hle hfits, hword]

/-! ## Recognition -/

/-- At a position a reader finds the codes that a writer appends.  It never faults.  Where a
number's code stands, it answers with the number and stops behind it.  An answer is a number
below `2 ^ 64 - 1`, and the reader is still within the bits; what it has read is the code of
that number exactly if the run of zeros at the position is short, and then, where there is no
code, it refuses. -/
structure Recognizes (v : BitString) (pos : Nat) (write : BitString → Nat → BitString)
    (read : Reading Nat) (checked : Checked Nat Nat) : Prop where
  runs : checked.runFrom pos = some (read.runFrom pos)
  reads : ∀ n stop, n < 2 ^ 64 - 1 → v.Stands (write · n) pos stop →
    read.runFrom pos = (.ok n, stop)
  bounds : ∀ n stop, read.runFrom pos = (.ok n, stop) →
    n < 2 ^ 64 - 1 ∧ pos ≤ stop ∧ stop ≤ v.size
  only : ∀ n stop, read.runFrom pos = (.ok n, stop) →
    (v.Stands (write · n) pos stop ↔ v.ShortRun pos)
  refuses : v.ShortRun pos → (∀ n stop, n < 2 ^ 64 - 1 → ¬ v.Stands (write · n) pos stop) →
    ∃ e stop, read.runFrom pos = (.error e, stop)

/-- What is carried from nothing on stands there; and the refusals follow from the rest. -/
theorem Recognizes.of {write : BitString → Nat → BitString} {read : Reading Nat}
    {checked : Checked Nat Nat} (hruns : Checked.Agrees id checked read)
    (hcarried : ∀ n, n + 1 < 2 ^ 64 → v.Carries pos (write empty n) empty.size →
      read.runFrom pos = (.ok n, pos + ((write empty n).size - empty.size)))
    (hread : ∀ n stop, read.runFrom pos = (.ok n, stop) →
      n + 1 < 2 ^ 64 ∧ pos ≤ stop ∧ stop ≤ v.size ∧
        (v.Stands (write · n) pos stop ↔ v.ShortRun pos)) :
    Recognizes v pos write read checked where
  runs := hruns.run pos
  reads n stop hn hstands := by
    obtain ⟨hcarries, hstop⟩ := hstands.carries
    rw [hcarried n (by omega) hcarries, hstop]
  bounds n stop h := by
    obtain ⟨hn, hle, hfits, -⟩ := hread n stop h
    exact ⟨by omega, hle, hfits⟩
  only n stop h := (hread n stop h).2.2.2
  refuses hshort hnone := by
    rcases h : read.runFrom pos with ⟨_ | n, stop⟩
    · exact ⟨_, _, rfl⟩
    · obtain ⟨hn, -, -, honly⟩ := hread n stop h
      exact absurd (honly.mpr hshort) (hnone n stop (by omega))

/-- The readers of gamma and delta codes accept codewords, and nothing else where the run of
zeros that is read first is shorter than `2 ^ 32`. -/
theorem accepts_codewords_iff (v : BitString) (pos : Nat) :
    Recognizes v pos appendGamma v.gamma (Packed.ofBitString v).gamma ∧
      Recognizes v pos appendDelta v.delta (Packed.ofBitString v).delta := by
  constructor
  · refine .of (Packed.gamma_agrees v) (fun n hn hcarries => runFrom_gamma hcarries hn) ?_
    intro n stop hread
    obtain ⟨hle, hfits, -⟩ := between_gamma hread
    exact ⟨(Packed.gamma_answers v).run hread, hle, hfits, gamma_stands_iff hread⟩
  · refine .of (Packed.delta_agrees v) (fun n hn hcarries => runFrom_delta hcarries hn) ?_
    intro n stop hread
    obtain ⟨hle, hfits, -⟩ := between_delta hread
    exact ⟨(Packed.delta_answers v).run hread, hle, hfits, delta_stands_iff hread⟩

/-- Zeros and a one. -/
theorem nextOne_zeros (count : Nat) :
    ((empty.appendZeros count).push true).nextOne 0 = some count := by
  have hbit : ∀ i, ((empty.appendZeros count).push true).bit i = decide (i = count) := by
    intro i
    rw [push, bit_appendBits, bit_appendZeros, bit_empty, size_appendZeros, size_empty,
      Nat.zero_add]
    by_cases hi : i = count
    · simp [hi]
    · rw [if_neg (by omega), decide_eq_false hi]
  rw [nextOne_eq_some]
  exact ⟨Nat.zero_le _, by simp [hbit], fun i _ hlt => by simp [hbit, Nat.ne_of_lt hlt]⟩

/-- A length of no bits tells that the number is zero. -/
theorem runFrom_takeBelow_zero (code : String) (h : mid ≤ v.size) :
    (v.takeBelow code 0).runFrom mid = (.ok 0, mid) := by
  have hnone : v.getBits mid 0 = 0 := Nat.lt_one_iff.mp (v.getBits_lt mid 0)
  rw [takeBelow, if_neg (by decide), Attempt.runFrom_bind, runFrom_take_of_fits (by omega), hnone]
  rfl

/-- Zeros of which 32 bits count none are read as none. -/
theorem read_of_zeros {count : Nat} (hcount : count % 2 ^ 32 = 0)
    (hv : v = (empty.appendZeros count).push true) :
    v.gamma.runFrom 0 = (.ok 0, count + 1) ∧ v.delta.runFrom 0 = (.ok 0, count + 1) := by
  have hone : v.nextOne 0 = some count := hv ▸ nextOne_zeros count
  have hfits : count + 1 ≤ v.size := by
    rw [hv, push, size_appendBits, size_appendZeros, size_empty]
    omega
  have hzeros : v.skipZeros.runFrom 0 = (.ok 0, count + 1) := by
    simp only [skipZeros, Attempt.runFrom_bind, Attempt.runFrom_get, hone, Attempt.runFrom_set,
      Attempt.runFrom_pure, Nat.sub_zero, hcount]
  have hgamma : v.gamma.runFrom 0 = (.ok 0, count + 1) := by
    rw [gamma, Attempt.runFrom_bind, hzeros]
    exact runFrom_takeBelow_zero _ hfits
  refine ⟨hgamma, ?_⟩
  rw [delta, Attempt.runFrom_bind, hgamma]
  exact runFrom_takeBelow_zero _ hfits

/-- As many zeros as 32 bits cannot count, and a one: that is read as no zeros and a one, though
what stands there is no code of zero. -/
theorem long_run_is_read_as_short :
    ∃ v : BitString, v = (empty.appendZeros (2 ^ 32)).push true ∧
      v.gamma.runFrom 0 = (.ok 0, 2 ^ 32 + 1) ∧ ¬ v.Stands (appendGamma · 0) 0 (2 ^ 32 + 1) ∧
      v.delta.runFrom 0 = (.ok 0, 2 ^ 32 + 1) ∧ ¬ v.Stands (appendDelta · 0) 0 (2 ^ 32 + 1) := by
  obtain ⟨v, hv⟩ : ∃ v : BitString, v = (empty.appendZeros (2 ^ 32)).push true := ⟨_, rfl⟩
  obtain ⟨hgamma, hdelta⟩ := read_of_zeros (Nat.mod_self _) hv
  have hone : v.nextOne 0 = some (2 ^ 32) := hv ▸ nextOne_zeros _
  have hlong : ¬ v.ShortRun 0 := by
    intro hshort
    have hlt := hshort _ hone
    omega
  exact ⟨v, hv, hgamma, fun h => hlong ((gamma_stands_iff hgamma).mp h),
    hdelta, fun h => hlong ((delta_stands_iff hdelta).mp h)⟩

end BitString
end Postings
