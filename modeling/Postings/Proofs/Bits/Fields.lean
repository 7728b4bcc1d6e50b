import Postings.Proofs.Bits.Carry
import Postings.Proofs.Bits.Rank
import Postings.Proofs.Bits.Spelling

/-!
# Reading what was written, field by field

Where a bit string carries a field that a writer appended, the matching reader
answers with the value and stands where the field ends.  The position after the
field is told by how much the writer grew its string, so that readers chain as
writers do.
-/

namespace Postings
namespace BitString

variable {v w : BitString} {pos : Nat}

/-! ## Alignment -/

theorem le_alignUp (n alignment : Nat) (h : 0 < alignment) : n ≤ alignUp n alignment := by
  rw [alignUp]
  have h1 := Nat.div_add_mod (n + (alignment - 1)) alignment
  have h2 := Nat.mod_lt (n + (alignment - 1)) h
  rw [Nat.mul_comm] at h1
  omega

@[simp] theorem size_padTo (v : BitString) (alignment : Nat) :
    (v.padTo alignment).size = v.size + padding v.size alignment := rfl

theorem size_padTo_eight (v : BitString) : (v.padTo 8).size = alignUp v.size 8 := by
  rw [size_padTo, padding]
  have := le_alignUp v.size 8 (by omega)
  omega

/-- Positions that agree up to whole bytes are as far from the next byte. -/
theorem alignUp_congr {p q : Nat} (h : p % 8 = q % 8) : alignUp p 8 = p + (alignUp q 8 - q) := by
  simp only [alignUp]
  omega

theorem alignUp_mod_eight (n : Nat) : alignUp n 8 % 8 = 0 := by
  rw [alignUp]
  omega

theorem alignUp_eight_le (n : Nat) : alignUp n 8 ≤ n + 7 := by
  rw [alignUp]
  omega

/-- What is between a number and its next multiple, with the remainder taken off above. -/
theorem add_pred_sub_mod (n : Nat) {a : Nat} (ha : 0 < a) :
    n + (a - 1) - (n + (a - 1)) % a - n = (a - n % a) % a := by
  obtain ⟨q, r, hr, rfl⟩ : ∃ q r, r < a ∧ n = r + a * q :=
    ⟨n / a, n % a, Nat.mod_lt n ha, (Nat.mod_add_div n a).symm⟩
  rw [Nat.add_mul_mod_self_left, Nat.mod_eq_of_lt hr, Nat.add_right_comm,
    Nat.add_mul_mod_self_left]
  rcases Nat.eq_zero_or_pos r with rfl | hpos
  · rw [Nat.zero_add, Nat.mod_eq_of_lt (by omega), Nat.sub_zero, Nat.mod_self]
    omega
  · rw [show r + (a - 1) = r - 1 + a by omega, Nat.add_mod_right, Nat.mod_eq_of_lt (by omega),
      Nat.mod_eq_of_lt (by omega)]
    omega

/-- As many zeros are missing as the remainder leaves. -/
theorem padding_eq (n : Nat) {a : Nat} (ha : 0 < a) : padding n a = (a - n % a) % a := by
  have hdiv := Nat.div_add_mod (n + (a - 1)) a
  rw [← add_pred_sub_mod n ha, padding, alignUp, Nat.mul_comm]
  congr 1
  exact (Nat.sub_eq_of_eq_add hdiv.symm).symm

/-- What is written behind padding is read behind padding. -/
theorem Carries.align (h : v.Carries pos w u) (hpos : pos % 8 = u % 8)
    (hle : alignUp u 8 ≤ w.size) : v.Carries (alignUp pos 8) w (alignUp u 8) := by
  have hu := le_alignUp u 8 (by omega)
  rw [alignUp_congr hpos]
  have := h.advance (alignUp u 8 - u) (by omega)
  rwa [show u + (alignUp u 8 - u) = alignUp u 8 by omega] at this

/-! ## Bit fields -/

theorem runFrom_take_of_fits {len : Nat} (h : pos + len ≤ v.size) :
    (v.take len).runFrom pos = (.ok (v.getBits pos len), pos + len) := by
  simp only [take, checkRange, h, if_true, Attempt.runFrom_bind, Attempt.runFrom_get,
    Attempt.runFrom_lift, Attempt.runFrom_set, Attempt.runFrom_pure]

theorem runFrom_take {value len : Nat} (h : v.Carries pos (w.appendBits value len) w.size)
    (hlen : len ≤ 64) (hvalue : value < 2 ^ len) :
    (v.take len).runFrom pos = (.ok value, pos + len) := by
  have hfits : pos + len ≤ v.size := by
    have := h.fits
    rw [size_appendBits] at this
    omega
  rw [runFrom_take_of_fits hfits, h.getBits_appendBits hlen hvalue]

/-! ## Universal codes -/

theorem log2_lt_sixtyFour {n : Nat} (h : n + 1 < 2 ^ 64) : (n + 1).log2 < 64 :=
  (Nat.log2_lt (by omega)).mpr h

theorem size_appendGamma (v : BitString) {n : Nat} (h : n + 1 < 2 ^ 64) :
    (v.appendGamma n).size = v.size + 2 * (n + 1).log2 + 1 := by
  have := log2_lt_sixtyFour h
  simp only [appendGamma, size_appendBits]
  omega

theorem size_appendGamma_le (v : BitString) (n : Nat) :
    (v.appendGamma n).size ≤ v.size + 128 := by
  simp only [appendGamma, size_appendBits]
  omega

theorem size_appendGammaPositive_le (v : BitString) (n : Nat) :
    (v.appendGammaPositive n).size ≤ v.size + 128 :=
  size_appendGamma_le v (n - 1)

theorem size_appendDelta_le (v : BitString) (n : Nat) :
    (v.appendDelta n).size ≤ v.size + 192 := by
  have := size_appendGamma_le v (n + 1).log2
  simp only [appendDelta, size_appendBits]
  omega

/-- The run of zeros before a power of two is as long as its exponent. -/
theorem runFrom_skipZeros {l : Nat} (h : v.Carries pos (w.appendBits (2 ^ l) (l + 1)) w.size)
    (hl : l < 64) : v.skipZeros.runFrom pos = (.ok l, pos + l + 1) := by
  have hbit : ∀ i, i ≤ l → v.bit (pos + i) = decide (l = i) := by
    intro i hi
    rw [h.bit_eq i (by rw [size_appendBits]; omega), bit_appendBits, if_pos (by omega),
      Nat.add_sub_cancel_left, Nat.testBit_two_pow]
  have hnext : v.nextOne pos = some (pos + l) := by
    rw [nextOne_eq_some]
    refine ⟨by omega, by simp [hbit l (Nat.le_refl l)], fun i hi hlt => ?_⟩
    obtain ⟨j, rfl⟩ := Nat.exists_eq_add_of_le hi
    rw [hbit j (by omega)]
    simp
    omega
  simp only [skipZeros, Attempt.runFrom_bind, Attempt.runFrom_get, hnext, Attempt.runFrom_set,
    Attempt.runFrom_pure, Prod.mk.injEq, Except.ok.injEq, and_true]
  omega

/-- The bits below the highest restore the number. -/
theorem runFrom_takeBelow {n : Nat} (code : String)
    (h : v.Carries pos (w.appendBits (n + 1 - 2 ^ (n + 1).log2) (n + 1).log2) w.size)
    (hn : n + 1 < 2 ^ 64) :
    (v.takeBelow code (n + 1).log2).runFrom pos = (.ok n, pos + (n + 1).log2) := by
  have hl := log2_lt_sixtyFour hn
  have hlow : 2 ^ (n + 1).log2 ≤ n + 1 := Nat.log2_self_le (by omega)
  have hhigh : n + 1 < 2 ^ ((n + 1).log2 + 1) := Nat.lt_log2_self
  have hbelow : n + 1 - 2 ^ (n + 1).log2 < 2 ^ (n + 1).log2 := by
    rw [Nat.pow_succ] at hhigh
    omega
  simp only [takeBelow, if_neg (show ¬ 63 < (n + 1).log2 by omega), Attempt.runFrom_bind,
    runFrom_take h (by omega) hbelow, Attempt.runFrom_pure, Prod.mk.injEq,
    Except.ok.injEq, and_true]
  omega

theorem runFrom_gamma {n : Nat} (h : v.Carries pos (w.appendGamma n) w.size)
    (hn : n + 1 < 2 ^ 64) :
    v.gamma.runFrom pos = (.ok n, pos + ((w.appendGamma n).size - w.size)) := by
  have hl := log2_lt_sixtyFour hn
  have hsize := size_appendGamma w hn
  have hprefix := h.mono (appendBits_extends _ _ _)
  have hbelow := h.advance ((n + 1).log2 + 1) (by omega)
  rw [appendGamma, show w.size + ((n + 1).log2 + 1) =
    (w.appendBits (2 ^ (n + 1).log2) ((n + 1).log2 + 1)).size by
      rw [size_appendBits]; omega] at hbelow
  rw [gamma, Attempt.runFrom_bind, runFrom_skipZeros hprefix hl]
  simp only
  rw [Nat.add_assoc, runFrom_takeBelow "gamma code" hbelow hn, hsize]
  simp only [Prod.mk.injEq, true_and]
  omega

theorem runFrom_gammaPositive {n : Nat} (h : v.Carries pos (w.appendGammaPositive n) w.size)
    (hpos : 0 < n) (hn : n < 2 ^ 64) :
    v.gammaPositive.runFrom pos = (.ok n, pos + ((w.appendGammaPositive n).size - w.size)) := by
  rw [gammaPositive, Attempt.runFrom_bind, runFrom_gamma h (by omega)]
  simp only [Attempt.runFrom_pure, Prod.mk.injEq, Except.ok.injEq]
  exact ⟨by omega, rfl⟩

theorem runFrom_delta {n : Nat} (h : v.Carries pos (w.appendDelta n) w.size)
    (hn : n + 1 < 2 ^ 64) :
    v.delta.runFrom pos = (.ok n, pos + ((w.appendDelta n).size - w.size)) := by
  have hl := log2_lt_sixtyFour hn
  have hlen : (n + 1).log2 + 1 < 2 ^ 64 := by omega
  have hsize := size_appendGamma w hlen
  have htotal : (w.appendDelta n).size = (w.appendGamma (n + 1).log2).size + (n + 1).log2 := by
    rw [appendDelta, size_appendBits]
    omega
  have hprefix : v.Carries pos (w.appendGamma (n + 1).log2) w.size :=
    h.mono (appendBits_extends _ _ _)
  have hbelow := h.advance ((w.appendGamma (n + 1).log2).size - w.size) (by omega)
  rw [appendDelta, show w.size + ((w.appendGamma (n + 1).log2).size - w.size) =
    (w.appendGamma (n + 1).log2).size by omega] at hbelow
  rw [delta, Attempt.runFrom_bind, runFrom_gamma hprefix hlen]
  simp only
  rw [runFrom_takeBelow "delta code" hbelow hn, htotal]
  simp only [Prod.mk.injEq, true_and]
  omega

/-! ## Fields of one width -/

/-- Appends fields of one width. -/
def appendFields (v : BitString) (width : Nat) (fields : List Nat) : BitString :=
  fields.foldl (fun bits field => bits.appendBits field width) v

theorem appendFields_extends (v : BitString) (width : Nat) (fields : List Nat) :
    (v.appendFields width fields).Extends v := by
  induction fields generalizing v with
  | nil => exact .refl v
  | cons field fields ih => exact (ih _).trans (appendBits_extends v field width)

theorem size_appendFields (v : BitString) {width : Nat} (h : width ≤ 64) (fields : List Nat) :
    (v.appendFields width fields).size = v.size + fields.length * width := by
  induction fields generalizing v with
  | nil => simp [appendFields]
  | cons field fields ih =>
      have hstep : v.appendFields width (field :: fields) =
          (v.appendBits field width).appendFields width fields := rfl
      rw [hstep, ih, size_appendBits, List.length_cons, Nat.succ_mul, Nat.min_eq_left h]
      omega

theorem size_appendFields_le (v : BitString) (width : Nat) (fields : List Nat) :
    (v.appendFields width fields).size ≤ v.size + 64 * fields.length := by
  induction fields generalizing v with
  | nil => exact Nat.le_add_right _ _
  | cons field fields ih =>
      have hrest := ih (v.appendBits field width)
      rw [size_appendBits] at hrest
      rw [List.length_cons]
      change ((v.appendBits field width).appendFields width fields).size ≤ _
      omega

/-- Each field reads as the number that was written. -/
theorem getBits_appendFields (v : BitString) {width : Nat} (h : width ≤ 64) {fields : List Nat}
    {i : Nat} (hi : i < fields.length) :
    (v.appendFields width fields).getBits (v.size + i * width) width =
      fields[i] % 2 ^ width := by
  induction fields generalizing v i with
  | nil => cases hi
  | cons field fields ih =>
      have hstep : v.appendFields width (field :: fields) =
          (v.appendBits field width).appendFields width fields := rfl
      rw [hstep]
      cases i with
      | zero =>
          have hcarry : ((v.appendBits field width).appendFields width fields).Carries v.size
              (v.appendBits field width) v.size :=
            .of_extends (appendFields_extends _ _ _) (appendBits_extends _ _ _).size_le
          have := hcarry.getBits (k := 0) h (by rw [size_appendBits]; omega)
          rw [Nat.add_zero] at this
          rw [Nat.zero_mul, Nat.add_zero, this, getBits_appendBits _ _ h, List.getElem_cons_zero]
      | succ i =>
          have := ih (v.appendBits field width) (i := i) (by simpa using hi)
          rw [size_appendBits, Nat.min_eq_left h] at this
          rw [show v.size + (i + 1) * width = v.size + width + i * width by
            rw [Nat.succ_mul]; omega, this, List.getElem_cons_succ]

/-- A field of a table that is carried. -/
theorem Carries.getBits_appendFields {width : Nat} {fields : List Nat}
    (h : v.Carries pos (w.appendFields width fields) w.size) (hwidth : width ≤ 64) {i : Nat}
    (hi : i < fields.length) (hfield : fields[i] < 2 ^ width) :
    v.getBits (pos + i * width) width = fields[i] := by
  have hend : i * width + width ≤ fields.length * width := by
    rw [← Nat.succ_mul]
    exact Nat.mul_le_mul_right _ hi
  rw [h.getBits hwidth (by rw [size_appendFields _ hwidth]; omega),
    BitString.getBits_appendFields _ hwidth hi, Nat.mod_eq_of_lt hfield]

/-! ## Bytes -/

theorem toNat_byteAt (v : BitString) (i : Nat) : (v.byteAt i).toNat = v.getBits (8 * i) 8 := by
  apply Nat.eq_of_testBit_eq
  intro j
  rw [testBit_getBits _ _ (by omega), byteAt, Nat.toUInt8, UInt8.toNat_ofNat',
    Nat.testBit_mod_two_pow, Nat.testBit_shiftRight]
  by_cases hj : j < 8
  · rw [testBit_wordAt v (by omega), show 64 * (i / 8) + (8 * (i % 8) + j) = 8 * i + j by omega]
  · simp [hj]

theorem size_appendBytes (v : BitString) (bytes : List UInt8) :
    (v.appendBytes bytes).size = v.size + 8 * bytes.length := by
  rw [← length_toList, toList_appendBytes, List.length_append, length_toList, ← bitsOf,
    length_bitsOf]

/-- The `i`-th of the bytes that were appended. -/
theorem getBits_appendBytes (v : BitString) {bytes : List UInt8} {i : Nat} (hi : i < bytes.length) :
    (v.appendBytes bytes).getBits (v.size + 8 * i) 8 = bytes[i].toNat := by
  induction bytes generalizing v i with
  | nil => cases hi
  | cons byte bytes ih =>
      have hstep : v.appendBytes (byte :: bytes) = (v.appendBits byte.toNat 8).appendBytes bytes :=
        rfl
      rw [hstep]
      cases i with
      | zero =>
          have hcarry : ((v.appendBits byte.toNat 8).appendBytes bytes).Carries v.size
              (v.appendBits byte.toNat 8) v.size :=
            .of_extends (appendBytes_extends _ _) (appendBits_extends _ _ _).size_le
          exact hcarry.getBits_appendBits (by omega) byte.toNat_lt
      | succ i =>
          have := ih (v.appendBits byte.toNat 8) (i := i) (by simpa using hi)
          rw [size_appendBits] at this
          rw [show v.size + 8 * (i + 1) = v.size + min 8 64 + 8 * i by omega, this]
          rfl

/-- Bytes that are carried at a byte boundary are the first of those read there. -/
theorem Carries.bytesFrom {bytes : List UInt8} (h : v.Carries pos (w.appendBytes bytes) w.size)
    (hpos : pos % 8 = 0) : ∃ rest, v.bytesFrom pos = bytes ++ rest := by
  have hfits := h.fits
  rw [size_appendBytes] at hfits
  refine ⟨(v.bytesFrom pos).drop bytes.length, ?_⟩
  have htake : (v.bytesFrom pos).take bytes.length = bytes := by
    apply List.ext_getElem
    · simp only [BitString.bytesFrom, List.length_take, List.length_map, List.length_range]
      omega
    · intro i h1 h2
      rw [List.getElem_take, ← UInt8.toNat_inj]
      simp only [BitString.bytesFrom, List.getElem_map, List.getElem_range]
      rw [toNat_byteAt, ← getBits_appendBytes w h2]
      have hlen : 8 * i + 8 ≤ 8 * bytes.length := by omega
      have := h.getBits (k := 8 * i) (show 8 ≤ 64 by omega) (by rw [size_appendBytes]; omega)
      rw [← this]
      congr 1
      omega
  calc v.bytesFrom pos
      = (v.bytesFrom pos).take bytes.length ++ (v.bytesFrom pos).drop bytes.length :=
        (List.take_append_drop _ _).symm
    _ = bytes ++ (v.bytesFrom pos).drop bytes.length := by rw [htake]

end BitString
end Postings
