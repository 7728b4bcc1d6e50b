import Postings.Proofs.Bits.Fields
import Postings.Proofs.Bits.Scans
import Postings.Proofs.Bits.Script

/-!
# Universal codes on words

A *codeword* is the list of bits that a number has in a code.  The writers append codewords,
both to a bit string and, without a fault, to words that spell a list.  On a machine the
highest bit is found by counting zeros and taken away by an exclusive or, and a number is put
together again by a shift and an or, up to the last bit of a word.

The readers of words have no fault either, whatever the bits are, and do what the readers of
bit strings do (`Checked.Agrees`): a length that has passed the check shifts by less than the
width, and what has been put together is not zero when one is taken off.  Positions have no
width here, as what is in memory can be counted.
-/

namespace Postings

/-! ## Codewords -/

/-- The bits of a number below its highest. -/
def bitsBelow (x : Nat) : List Bool :=
  lowFirst x.log2 (x - 2 ^ x.log2)

/-- Zeros as many as there are bits below the highest, a one, and these bits. -/
def gammaWord (n : Nat) : List Bool :=
  List.replicate (n + 1).log2 false ++ [true] ++ bitsBelow (n + 1)

/-- The codeword of how many bits there are below the highest, and these bits. -/
def deltaWord (n : Nat) : List Bool :=
  gammaWord (n + 1).log2 ++ bitsBelow (n + 1)

/-- A power of two is a one behind zeros. -/
theorem lowFirst_two_pow (l : Nat) :
    lowFirst (l + 1) (2 ^ l) = List.replicate l false ++ [true] := by
  induction l with
  | zero => rfl
  | succ l ih =>
      rw [lowFirst, Nat.pow_succ, Nat.mul_div_cancel _ (by decide), ih, Nat.testBit_zero]
      simp [List.replicate_succ]

/-- Without its highest bit a number is less than that. -/
theorem sub_highest_lt {x : Nat} (h : x ≠ 0) : x - 2 ^ x.log2 < 2 ^ x.log2 := by
  have hlow := Nat.log2_self_le h
  have hhigh := Nat.lt_log2_self (n := x)
  rw [Nat.pow_succ] at hhigh
  omega

/-- An exclusive or takes the highest bit away. -/
theorem xor_highest {x : Nat} (h : x ≠ 0) : x ^^^ 2 ^ x.log2 = x - 2 ^ x.log2 := by
  have hrest := sub_highest_lt h
  have hsplit : 2 ^ x.log2 ||| (x - 2 ^ x.log2) = x := by
    have hsum := Nat.two_pow_add_eq_or_of_lt hrest 1
    rw [Nat.mul_one, Nat.add_sub_cancel' (Nat.log2_self_le h)] at hsum
    exact hsum.symm
  refine Nat.eq_of_testBit_eq fun j => ?_
  have hbit : x.testBit j = ((2 ^ x.log2).testBit j || (x - 2 ^ x.log2).testBit j) := by
    rw [← Nat.testBit_or, hsplit]
  rw [Nat.testBit_xor, hbit, Nat.testBit_two_pow]
  by_cases hj : x.log2 = j
  · subst hj
    rw [testBit_of_lt hrest (Nat.le_refl _)]
    simp
  · simp [hj]

namespace BitString

theorem toList_appendGamma (v : BitString) {n : Nat} (h : n + 1 < 2 ^ 64) :
    (v.appendGamma n).toList = v.toList ++ gammaWord n := by
  have hl := log2_lt_sixtyFour h
  rw [appendGamma, toList_appendBits _ _ (by omega), toList_appendBits _ _ (by omega),
    lowFirst_two_pow, List.append_assoc, gammaWord, bitsBelow]

theorem toList_appendDelta (v : BitString) {n : Nat} (h : n + 1 < 2 ^ 64) :
    (v.appendDelta n).toList = v.toList ++ deltaWord n := by
  have hl := log2_lt_sixtyFour h
  rw [appendDelta, toList_appendBits _ _ (by omega), toList_appendGamma _ (by omega),
    List.append_assoc, deltaWord, bitsBelow]

end BitString

namespace Packed

/-! ## Writing -/

/-- The position of the highest set bit, which there has to be. -/
def highest (word : UInt64) : Option Nat := do
  guard (word ≠ 0)
  Checked.sub 63 (leading word)

/-- Appends the gamma code of a number that is not the largest of its width. -/
def appendGamma (v : Packed) (n : UInt64) : Option Packed := do
  guard (n.toNat < 2 ^ 64 - 1)
  let l ← highest (n + 1)
  let high ← shl 1 l
  let v ← v.appendBits high (l + 1)
  v.appendBits ((n + 1) ^^^ high) l

/-- Appends the gamma code of a number that is not zero, shifted down by one. -/
def appendGammaPositive (v : Packed) (n : UInt64) : Option Packed := do
  guard (0 < n.toNat)
  v.appendGamma (n - 1)

/-- Appends the delta code of a number that is not the largest of its width. -/
def appendDelta (v : Packed) (n : UInt64) : Option Packed := do
  guard (n.toNat < 2 ^ 64 - 1)
  let l ← highest (n + 1)
  let high ← shl 1 l
  let v ← v.appendGamma l.toUInt64
  v.appendBits ((n + 1) ^^^ high) l

theorem highest_eq {word : UInt64} (h : word ≠ 0) : highest word = some word.toNat.log2 := by
  have hlt : leading word < 64 := (lastOne_eq h).1
  have hpos : word.toNat ≠ 0 := fun hzero => h (UInt64.toNat_inj.mp hzero)
  have hlow : 2 ^ (63 - leading word) ≤ word.toNat :=
    BitVec.two_pow_sub_clz_le_toNat_of_ne_zero (by decide) (toBitVec_ne_zero h)
  have hhigh : word.toNat < 2 ^ (64 - leading word) := BitVec.toNat_lt_two_pow_sub_clz
  have hlog : word.toNat.log2 = 63 - leading word := by
    rw [Nat.log2_eq_iff hpos]
    refine ⟨hlow, ?_⟩
    rwa [show 63 - leading word + 1 = 64 - leading word by omega]
  rw [highest, guard_of h, Option.bind_eq_bind, Option.bind_some, Checked.sub, if_pos (by omega),
    hlog]

/-- What the writers compute of a number. -/
theorem exists_highest {n : UInt64} (h : n.toNat + 1 < 2 ^ 64) :
    highest (n + 1) = some (n.toNat + 1).log2 ∧
    ∃ high, shl 1 (n.toNat + 1).log2 = some high ∧ high.toNat = 2 ^ (n.toNat + 1).log2 ∧
      ((n + 1) ^^^ high).toNat = n.toNat + 1 - 2 ^ (n.toNat + 1).log2 := by
  have hl := BitString.log2_lt_sixtyFour h
  have hnext : (n + 1).toNat = n.toNat + 1 := by
    rw [UInt64.toNat_add, UInt64.toNat_one, Nat.mod_eq_of_lt h]
  have hne : n + 1 ≠ 0 := by
    intro hzero
    rw [hzero] at hnext
    cases hnext
  have hhigh : (1 <<< (n.toNat + 1).log2.toUInt64 : UInt64).toNat = 2 ^ (n.toNat + 1).log2 := by
    rw [UInt64.toNat_shiftLeft, toNat_toUInt64_mod hl, UInt64.toNat_one, Nat.one_shiftLeft,
      Nat.mod_eq_of_lt (Nat.pow_lt_pow_right (by decide) hl)]
  refine ⟨by rw [highest_eq hne, hnext], _, if_pos hl, hhigh, ?_⟩
  rw [UInt64.toNat_xor, hhigh, hnext, xor_highest (Nat.succ_ne_zero _)]

namespace Spells

variable {v : Packed} {bits : List Bool}

theorem appendGamma (h : v.Spells bits) {n : UInt64} (hn : n.toNat + 1 < 2 ^ 64) :
    ∃ w, v.appendGamma n = some w ∧ w.Spells (bits ++ gammaWord n.toNat) := by
  have hl := BitString.log2_lt_sixtyFour hn
  obtain ⟨hhighest, high, hshl, hhigh, hbelow⟩ := exists_highest hn
  obtain ⟨u, hu, hprefix⟩ := h.appendBits high (show (n.toNat + 1).log2 + 1 ≤ 64 by omega)
    (by rw [hhigh]; exact Nat.pow_lt_pow_right (by decide) (Nat.lt_succ_self _))
  obtain ⟨w, hw, hword⟩ := hprefix.appendBits ((n + 1) ^^^ high) (Nat.le_of_lt hl)
    (by rw [hbelow]; exact sub_highest_lt (Nat.succ_ne_zero _))
  refine ⟨w, ?_, ?_⟩
  · simp only [Packed.appendGamma, guard_of (show n.toNat < 2 ^ 64 - 1 by omega), hhighest, hshl,
      hu, Option.bind_eq_bind, Option.bind_some]
    exact hw
  · rwa [hhigh, lowFirst_two_pow, hbelow, List.append_assoc] at hword

theorem appendGammaPositive (h : v.Spells bits) {n : UInt64} (hn : 0 < n.toNat) :
    ∃ w, v.appendGammaPositive n = some w ∧ w.Spells (bits ++ gammaWord (n.toNat - 1)) := by
  have hone : 1 ≤ n := UInt64.le_iff_toNat_le.mpr hn
  have hpred : (n - 1).toNat = n.toNat - 1 := by
    rw [UInt64.toNat_sub_of_le _ _ hone, UInt64.toNat_one]
  have hlt := n.toNat_lt
  obtain ⟨w, hw, hword⟩ := h.appendGamma (n := n - 1) (by omega)
  refine ⟨w, ?_, by rwa [hpred] at hword⟩
  rw [Packed.appendGammaPositive, guard_of hn]
  exact hw

theorem appendDelta (h : v.Spells bits) {n : UInt64} (hn : n.toNat + 1 < 2 ^ 64) :
    ∃ w, v.appendDelta n = some w ∧ w.Spells (bits ++ deltaWord n.toNat) := by
  have hl := BitString.log2_lt_sixtyFour hn
  have hvalue : (n.toNat + 1).log2.toUInt64.toNat = (n.toNat + 1).log2 :=
    UInt64.toNat_ofNat_of_lt' (Nat.lt_trans hl (by decide))
  obtain ⟨hhighest, high, hshl, hhigh, hbelow⟩ := exists_highest hn
  obtain ⟨u, hu, hprefix⟩ := h.appendGamma (n := (n.toNat + 1).log2.toUInt64) (by omega)
  obtain ⟨w, hw, hword⟩ := hprefix.appendBits ((n + 1) ^^^ high) (Nat.le_of_lt hl)
    (by rw [hbelow]; exact sub_highest_lt (Nat.succ_ne_zero _))
  refine ⟨w, ?_, ?_⟩
  · simp only [Packed.appendDelta, guard_of (show n.toNat < 2 ^ 64 - 1 by omega), hhighest, hshl,
      hu, Option.bind_eq_bind, Option.bind_some]
    exact hw
  · rwa [hvalue, hbelow, List.append_assoc] at hword

end Spells

/-! ## Reading -/

/-- Refuses unless the range lies within the bits. -/
def checkRange (v : Packed) (element : String) (pos bits : Nat) : Except Error Unit :=
  if pos + bits ≤ v.size then .ok ()
  else .error (.regionTooShort element (min (pos + bits) (2 ^ 64 - 1)) v.size)

/-- The next `len` bits, as a number. -/
def take (v : Packed) (len : Nat) : Checked Nat Nat := do
  let pos ← getThe Nat
  v.checkRange "bit field" pos len
  let word ← v.getBits pos len
  set (pos + len)
  return word.toNat

/-- Passes over `bits` bits. -/
def skip (v : Packed) (bits : Nat) : Checked Nat Unit := do
  let pos ← getThe Nat
  v.checkRange "skipped bits" pos bits
  set (pos + bits)

/-- Passes over a run of zeros and the one that ends it. -/
def skipZeros (v : Packed) : Checked Nat Nat := do
  let pos ← getThe Nat
  match ← v.nextOne pos with
  | some one =>
      let zeros ← Checked.sub one pos
      set (one + 1)
      return zeros % 2 ^ 32
  | none => throw (.regionTooShort "unary code" (v.size + 1) v.size)

/-- The distance to the next multiple of a power of two, which is found by clearing bits. -/
def distance (pos alignment : Nat) : Option Nat := do
  guard (2 ^ alignment.log2 = alignment)
  let above := pos + (alignment - 1)
  Checked.sub (above - (above &&& (alignment - 1))) pos

/-- Moves to the next multiple of a power of two. -/
def align (v : Packed) (alignment : Nat) : Checked Nat Unit := do
  let pos ← getThe Nat
  v.skip (← distance pos alignment)

/-- The bits below the highest, and the highest. -/
def takeBelow (v : Packed) (code : String) (l : Nat) : Checked Nat Nat := do
  if 63 < l then
    throw (.invalidFormat code "length prefix exceeds 63")
  let bits ← v.take l
  let high ← Checked.shl 64 1 l
  Checked.sub (bits ||| high) 1

/-- Reads a gamma code. -/
def gamma (v : Packed) : Checked Nat Nat := do
  v.takeBelow "gamma code" (← v.skipZeros)

/-- Reads the gamma code of a number that is not zero. -/
def gammaPositive (v : Packed) : Checked Nat Nat := do
  let n ← v.gamma
  Checked.add 64 n 1

/-- Reads a delta code. -/
def delta (v : Packed) : Checked Nat Nat := do
  v.takeBelow "delta code" (← v.gamma)

section

variable (v : BitString)

open Checked (Agrees)

theorem exists_getBits {pos len : Nat} (hlen : len ≤ 64) (hfits : pos + len ≤ v.size) :
    ∃ word, (ofBitString v).getBits pos len = some word ∧ word.toNat = v.getBits pos len := by
  rw [← v.length_toList] at hfits
  have hword := (Spells.of_bitString v).getBits hlen hfits
  rw [← v.reads.getBits_eq pos len hlen hfits] at hword
  exact Option.map_eq_some_iff.mp hword

theorem get_agrees : Agrees id (getThe Nat : Checked Nat Nat) (getThe Nat : Reading Nat) :=
  ⟨fun _ => rfl⟩

theorem set_agrees (pos : Nat) : Agrees id (set pos : Checked Nat Unit) (set pos : Reading Unit) :=
  ⟨fun _ => rfl⟩

theorem checkRange_answers (element : String) (pos bits : Nat) :
    Attempt.Answers (liftM (v.checkRange element pos bits) : Reading Unit)
      fun _ => pos + bits ≤ v.size := by
  refine .lift fun _ hok => ?_
  rw [BitString.checkRange] at hok
  split at hok
  · assumption
  · cases hok

theorem take_agrees {len : Nat} (hlen : len ≤ 64) :
    Agrees id ((ofBitString v).take len) (v.take len) := by
  rw [take, BitString.take]
  refine get_agrees.bind (.any _) fun pos _ => ?_
  refine (Agrees.lift _).bind (checkRange_answers v _ _ _) fun _ hfits => ?_
  obtain ⟨word, hword, hvalue⟩ := exists_getBits v hlen hfits
  refine .after hword ?_
  rw [← hvalue]
  exact (set_agrees _).bind (.any _) fun _ _ => .pure _

theorem skip_agrees (bits : Nat) : Agrees id ((ofBitString v).skip bits) (v.skip bits) :=
  get_agrees.bind (.any _) fun _ _ => (Agrees.lift _).bind (.any _) fun _ _ => set_agrees _

theorem skipZeros_agrees : Agrees id (ofBitString v).skipZeros v.skipZeros := by
  rw [skipZeros, BitString.skipZeros]
  refine get_agrees.bind (.any _) fun pos _ => .after (nextOne_eq v pos) ?_
  cases hnext : v.nextOne pos with
  | none => exact .throw _
  | some one =>
      have hle : pos ≤ one := (BitString.nextOne_eq_some.mp hnext).1
      refine .after (if_pos hle) ?_
      exact (set_agrees _).bind (.any _) fun _ _ => .pure _

theorem distance_eq (pos : Nat) {alignment : Nat} (h : alignment.isPowerOfTwo) :
    distance pos alignment = some (padding pos alignment) := by
  obtain ⟨k, rfl⟩ := h
  have hguard : 2 ^ (2 ^ k).log2 = 2 ^ k := by rw [Nat.log2_two_pow]
  have hdown : pos + (2 ^ k - 1) - (pos + (2 ^ k - 1)) % 2 ^ k = alignUp pos (2 ^ k) := by
    have hdiv := Nat.div_add_mod (pos + (2 ^ k - 1)) (2 ^ k)
    rw [alignUp, Nat.mul_comm]
    omega
  simp only [distance, guard_of hguard, Nat.and_two_pow_sub_one_eq_mod, hdown, Option.bind_eq_bind,
    Option.bind_some]
  exact if_pos (BitString.le_alignUp pos _ (Nat.two_pow_pos k))

theorem align_agrees {alignment : Nat} (h : alignment.isPowerOfTwo) :
    Agrees id ((ofBitString v).align alignment) (v.align alignment) :=
  get_agrees.bind (.any _) fun pos _ => .after (distance_eq pos h) (skip_agrees v _)

theorem take_answers (len : Nat) : (v.take len).Answers (· < 2 ^ len) := by
  rw [BitString.take]
  refine .bind (.any _) fun pos _ => .bind (.any _) fun _ _ => .bind (.any _) fun _ _ => ?_
  exact .pure (v.getBits_lt pos len)

theorem takeBelow_agrees (code : String) (l : Nat) :
    Agrees id ((ofBitString v).takeBelow code l) (v.takeBelow code l) := by
  rw [takeBelow, BitString.takeBelow]
  split
  · exact .throw_bind _ _ _
  · rename_i hl
    refine (take_agrees v (by omega)).bind (take_answers v l) fun bits hbits => ?_
    refine .after (Checked.shl_eq (show 1 < 2 ^ 1 by decide) (by omega) (by decide)) ?_
    rw [or_above hbits, Nat.mul_one]
    exact .computed (if_pos (Nat.le_add_left_of_le (Nat.two_pow_pos l)))

/-- What is put together fits a word, and is not the largest that does. -/
theorem takeBelow_answers (code : String) (l : Nat) :
    (v.takeBelow code l).Answers fun n => n + 1 < 2 ^ 64 := by
  rw [BitString.takeBelow]
  split
  · exact .throw_bind _ _
  · rename_i hl
    refine (take_answers v l).bind fun bits hbits => .pure ?_
    have hpow : 2 ^ (l + 1) ≤ 2 ^ 64 := Nat.pow_le_pow_right (by decide) (by omega)
    rw [Nat.pow_succ] at hpow
    omega

theorem gamma_agrees : Agrees id (ofBitString v).gamma v.gamma :=
  (skipZeros_agrees v).bind (.any _) fun l _ => takeBelow_agrees v _ l

theorem gamma_answers : v.gamma.Answers fun n => n + 1 < 2 ^ 64 :=
  .bind (.any _) fun l _ => takeBelow_answers v _ l

theorem gammaPositive_agrees : Agrees id (ofBitString v).gammaPositive v.gammaPositive :=
  (gamma_agrees v).bind (gamma_answers v) fun _ hn => .computed (if_pos hn)

theorem delta_answers : v.delta.Answers fun n => n + 1 < 2 ^ 64 :=
  .bind (.any _) fun l _ => takeBelow_answers v _ l

theorem delta_agrees : Agrees id (ofBitString v).delta v.delta :=
  (gamma_agrees v).bind (.any _) fun l _ => takeBelow_agrees v _ l

end

end Packed
end Postings
