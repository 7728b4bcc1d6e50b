import Postings.Proofs.Bits.Fields
import Postings.Proofs.Bits.Packed

/-!
# What packed words spell

Words *spell* a list of bits when they are as many as the bits need and bit `i` of them is
bit `i` of the list, with nothing set past its end.  Every operation goes from words that
spell a list, without a fault, to words that spell the list it should leave.  What carries
this is that the bits past the end are clear: whatever is set there is all that there is, in
the last word as in a word that is pushed.

A list is spelled by the words of the bit string with that list and by no others
(`Packed.Spells.eq_of_toList`), and readings answer from it.
-/

namespace Postings
namespace Packed

/-! ## Spelling a list -/

/-- The words spell the bits of a list, and nothing behind it. -/
structure Spells (v : Packed) (bits : List Bool) : Prop where
  size_eq : v.size = bits.length
  words_size : v.words.size = (bits.length + 63) / 64
  bit_eq : ∀ i, v.bit i = bits[i]?.getD false

namespace Spells

variable {v : Packed} {bits : List Bool}

theorem words_eq (h : v.Spells bits) : v.words.size = (v.size + 63) / 64 := by
  rw [h.words_size, h.size_eq]

theorem bit_of_le (h : v.Spells bits) {i : Nat} (hi : v.size ≤ i) : v.bit i = false := by
  rw [h.bit_eq, List.getElem?_eq_none (by rw [← h.size_eq]; exact hi), Option.getD_none]

theorem toList_eq (h : v.Spells bits) : v.toList = bits := by
  apply List.ext_getElem
  · simp only [Packed.toList, List.length_map, List.length_range, h.size_eq]
  · intro i _ hi
    simp only [Packed.toList, List.getElem_map, List.getElem_range, h.bit_eq,
      List.getElem?_eq_getElem hi, Option.getD_some]

/-- The words of a bit string spell its list. -/
theorem of_bitString (v : BitString) : Spells ⟨v.words, v.size⟩ v.toList where
  size_eq := v.length_toList.symm
  words_size := by rw [v.length_toList, v.words_size]
  bit_eq i := by
    change v.bit i = _
    rw [v.toList_getElem?]
    split
    · rw [Option.getD_some]
    · rw [Option.getD_none, v.bit_eq_false_of_size_le (by omega)]

/-- Words that spell a list are those of the bit string with that list. -/
theorem eq_of_toList (h : v.Spells bits) {w : BitString} (hw : w.toList = bits) :
    v = ⟨w.words, w.size⟩ := by
  have hclear : ∀ i, v.size ≤ i → v.bit i = false := fun i hi => h.bit_of_le hi
  have hsame : (⟨v.words, v.size, h.words_eq, hclear⟩ : BitString) = w :=
    BitString.toList_inj.mp (h.toList_eq.trans hw.symm)
  rw [← hsame]

/-! ## Fields that are appended -/

/-- What was there is left, and the bits of a number follow. -/
theorem extended (h : v.Spells bits) {w : Packed} {x len : Nat} (hx : x < 2 ^ len)
    (hsize : w.size = v.size + len) (hwords : w.words.size = (v.size + len + 63) / 64)
    (hbit : ∀ i, w.bit i = if i < v.size then v.bit i else x.testBit (i - v.size)) :
    w.Spells (bits ++ lowFirst len x) where
  size_eq := by rw [hsize, h.size_eq, List.length_append, length_lowFirst]
  words_size := by rw [hwords, h.size_eq, List.length_append, length_lowFirst]
  bit_eq i := by
    rw [hbit, List.getElem?_append, h.size_eq, h.bit_eq]
    split
    · rfl
    · rw [getD_lowFirst hx]

/-- Where the bits end at a word, a field is a word of its own. -/
theorem push_word (h : v.Spells bits) {value : UInt64} {len : Nat} (haligned : v.size % 64 = 0)
    (hpos : 0 < len) (hlen : len ≤ 64) (hfit : value.toNat < 2 ^ len) :
    Spells ⟨v.words.push value, v.size + len⟩ (bits ++ lowFirst len value.toNat) := by
  have hwords := h.words_eq
  refine h.extended hfit rfl (by rw [Array.size_push]; omega) fun i => ?_
  change (wordAt (v.words.push value) (i / 64)).testBit (i % 64) = _
  rw [wordAt_push]
  by_cases hlast : i / 64 = v.words.size
  · rw [if_pos hlast, if_neg (by omega), show i - v.size = i % 64 by omega]
  · rw [if_neg hlast]
    split
    · rfl
    · rw [testBit_of_lt value.toNat_lt (by omega), wordAt_of_size_le (by omega), Nat.zero_testBit]

/-- Elsewhere the last word takes the bits of the field that fit into it. -/
theorem testBit_or_last (h : v.Spells bits) {value low : UInt64} {len : Nat}
    (hoffset : v.size % 64 ≠ 0) (hfit : value.toNat < 2 ^ len)
    (hlow : ∀ j, j < 64 → low.toNat.testBit j =
      (decide (v.size % 64 ≤ j) && value.toNat.testBit (j - v.size % 64)))
    {i : Nat} (hi : i / 64 < v.words.size ∨ v.size + len ≤ i) :
    (wordAt (v.words.modify (v.words.size - 1) fun word => word ||| low) (i / 64)).testBit
        (i % 64) =
      if i < v.size then v.bit i else value.toNat.testBit (i - v.size) := by
  have hwords := h.words_eq
  rw [testBit_modify_or (by omega), hlow _ (Nat.mod_lt _ (by decide))]
  change (v.bit i || _) = _
  by_cases hlast : i / 64 = v.words.size - 1
  · rw [decide_eq_true hlast, Bool.true_and]
    split
    · rw [decide_eq_false (by omega), Bool.false_and, Bool.or_false]
    · rw [decide_eq_true (by omega), Bool.true_and, h.bit_of_le (by omega), Bool.false_or,
        show i % 64 - v.size % 64 = i - v.size by omega]
  · rw [decide_eq_false hlast, Bool.false_and, Bool.or_false]
    split
    · rfl
    · rw [h.bit_of_le (by omega), testBit_of_lt hfit (by omega)]

/-- A field is appended without a fault. -/
theorem appendBits (h : v.Spells bits) (value : UInt64) {len : Nat} (hlen : len ≤ 64)
    (hfit : value.toNat < 2 ^ len) :
    ∃ w, v.appendBits value len = some w ∧ w.Spells (bits ++ lowFirst len value.toNat) := by
  have hwords := h.words_eq
  simp only [Packed.appendBits, guard_of hlen, fits_of_lt hlen hfit, guard_of, Option.bind_eq_bind,
    Option.bind_some]
  by_cases hzero : len = 0
  · subst hzero
    exact ⟨v, rfl, by rwa [lowFirst, List.append_nil]⟩
  rw [if_neg hzero]
  by_cases hoffset : v.size % 64 = 0
  · rw [if_pos hoffset]
    exact ⟨_, rfl, h.push_word hoffset (by omega) hlen hfit⟩
  rw [if_neg hoffset]
  obtain ⟨low, hshl, hlow⟩ := exists_shl value (show v.size % 64 < 64 by omega)
  rw [hshl, Option.bind_some, update_of_lt (by omega), Option.bind_some]
  by_cases hcarry : 64 - v.size % 64 < len
  · obtain ⟨high, hshr, hhigh⟩ := exists_shr value (show 64 - v.size % 64 < 64 by omega)
    rw [if_pos hcarry, hshr]
    refine ⟨_, rfl, h.extended hfit rfl (by simp only [Array.size_push, Array.size_modify]; omega)
      fun i => ?_⟩
    change (wordAt (Array.push _ high) (i / 64)).testBit (i % 64) = _
    rw [wordAt_push, Array.size_modify]
    by_cases hpushed : i / 64 = v.words.size
    · rw [if_pos hpushed, if_neg (by omega), hhigh, Nat.testBit_shiftRight,
        show 64 - v.size % 64 + i % 64 = i - v.size by omega]
    · rw [if_neg hpushed, h.testBit_or_last hoffset hfit hlow (by omega)]
  · rw [if_neg hcarry]
    exact ⟨_, rfl, h.extended hfit rfl (by simp only [Array.size_modify]; omega) fun i =>
      h.testBit_or_last hoffset hfit hlow (by omega)⟩

theorem push (h : v.Spells bits) (b : Bool) :
    ∃ w, v.push b = some w ∧ w.Spells (bits ++ [b]) := by
  have hfit : b.toUInt64.toNat < 2 ^ 1 := by cases b <;> decide
  obtain ⟨w, hw, hspells⟩ := h.appendBits _ (by decide) hfit
  refine ⟨w, hw, ?_⟩
  cases b <;> exact hspells

/-! ## Zeros, bytes and other bits -/

theorem appendZeros (h : v.Spells bits) (count : Nat) :
    (v.appendZeros count).Spells (bits ++ List.replicate count false) := by
  have hwords := h.words_eq
  have hall : v.words.take ((v.size + count + 63) / 64) = v.words :=
    Array.extract_eq_self_of_le (by omega)
  refine ⟨?_, ?_, fun i => ?_⟩
  · rw [List.length_append, List.length_replicate, ← h.size_eq, Packed.appendZeros]
  · rw [List.length_append, List.length_replicate, ← h.size_eq]
    simp only [Packed.appendZeros, hall, Array.size_rightpad]
    omega
  · change (wordAt (Array.rightpad _ 0 _) (i / 64)).testBit (i % 64) = _
    rw [hall, Array.rightpad, wordAt_append_zeros]
    refine (h.bit_eq i).trans ?_
    rw [List.getElem?_append]
    split
    · rfl
    · rw [List.getElem?_eq_none (by omega), Option.getD_none, List.getElem?_replicate]
      split
      · rfl
      · rfl

theorem appendEach (h : v.Spells bits) (bytes : List UInt8) :
    ∃ w, v.appendEach bytes = some w ∧ w.Spells (bits ++ bitsOf bytes) := by
  rw [Packed.appendEach]
  induction bytes generalizing v bits with
  | nil => exact ⟨v, rfl, by rwa [bitsOf, List.flatMap_nil, List.append_nil]⟩
  | cons byte bytes ih =>
      have hvalue : byte.toUInt64.toNat = byte.toNat := UInt8.toNat_toUInt64 byte
      obtain ⟨u, hu, hspells⟩ := h.appendBits byte.toUInt64 (show 8 ≤ 64 by decide)
        (by rw [hvalue]; exact byte.toNat_lt)
      obtain ⟨w, hw, hall⟩ := ih hspells
      refine ⟨w, ?_, ?_⟩
      · rw [List.foldlM_cons, hu]
        exact hw
      · rwa [hvalue, List.append_assoc, ← bitsOf_cons] at hall

/-- Eight bytes are the word whose number they spell. -/
theorem appendChunks (h : v.Spells bits) (haligned : v.size % 64 = 0) (bytes : List UInt8) :
    ∃ w, v.appendChunks bytes = some w ∧ w.Spells (bits ++ bitsOf bytes) := by
  fun_induction Packed.appendChunks v bytes generalizing bits with
  | case1 v bytes hlength ih =>
      have htake : (bytes.take 8).length = 8 := List.length_take_of_le hlength
      have hlt : ofLeBytes (bytes.take 8) < 2 ^ 64 := by
        have := ofLeBytes_lt (bytes.take 8)
        rwa [htake] at this
      have hvalue : (ofLeBytes (bytes.take 8)).toUInt64.toNat = ofLeBytes (bytes.take 8) :=
        UInt64.toNat_ofNat_of_lt' hlt
      have hspelled : lowFirst 64 (ofLeBytes (bytes.take 8)) = bitsOf (bytes.take 8) := by
        have := lowFirst_ofLeBytes (bytes.take 8)
        rwa [htake] at this
      have hpushed := h.push_word haligned (show 0 < 64 by decide) (Nat.le_refl _)
        (UInt64.toNat_lt (ofLeBytes (bytes.take 8)).toUInt64)
      rw [hvalue, hspelled] at hpushed
      obtain ⟨w, hw, hall⟩ := ih hpushed (by simp only; omega)
      refine ⟨w, hw, ?_⟩
      rwa [List.append_assoc, ← bitsOf_append, List.take_append_drop] at hall
  | case2 v bytes hlength => exact h.appendEach bytes

theorem appendBytes (h : v.Spells bits) (bytes : List UInt8) :
    ∃ w, v.appendBytes bytes = some w ∧ w.Spells (bits ++ bitsOf bytes) := by
  rw [Packed.appendBytes]
  split
  · rename_i haligned
    exact h.appendChunks haligned bytes
  · exact h.appendEach bytes

/-- The bits of a word that are in the list are a piece of it. -/
theorem lowFirst_wordAt (h : v.Spells bits) {w len : Nat} (hlen : len ≤ 64)
    (hfits : 64 * w + len ≤ bits.length) :
    lowFirst len (wordAt v.words w) = (bits.drop (64 * w)).take len := by
  apply List.ext_getElem?
  intro i
  rw [lowFirst_getElem?, List.getElem?_take, List.getElem?_drop]
  split
  · rw [v.testBit_word w (by omega), h.bit_eq, List.getElem?_eq_getElem (by omega),
      Option.getD_some]
  · rfl

/-- The last word has no bits but those of the list. -/
theorem wordAt_lt (h : v.Spells bits) {w len : Nat} (hend : bits.length ≤ 64 * w + len) :
    wordAt v.words w < 2 ^ len := by
  refine Nat.lt_pow_two_of_testBit _ fun j hj => ?_
  by_cases hword : j < 64
  · rw [v.testBit_word w hword, h.bit_of_le (by rw [h.size_eq]; omega)]
  · exact testBit_wordAt_of_le _ _ (by omega)

/-- The first words of others append the first of their bits. -/
theorem append_words (h : v.Spells bits) {other : Packed} {others : List Bool}
    (hother : other.Spells others) (count : Nat) (hcount : 64 * count ≤ others.length) :
    ∃ w, (other.words.toList.take count).foldlM (fun v word => v.appendBits word 64) v = some w ∧
      w.Spells (bits ++ others.take (64 * count)) := by
  have hwords := hother.words_size
  induction count with
  | zero => exact ⟨v, rfl, by rwa [Nat.mul_zero, List.take_zero, List.append_nil]⟩
  | succ count ih =>
      obtain ⟨u, hu, hspells⟩ := ih (by omega)
      obtain ⟨word, hword, hvalue⟩ :=
        getElem?_eq_some_wordAt (show count < other.words.size by omega)
      obtain ⟨w, hw, hall⟩ := hspells.appendBits word (Nat.le_refl 64) word.toNat_lt
      refine ⟨w, ?_, ?_⟩
      · rw [List.take_add_one, Array.getElem?_toList, hword, List.foldlM_append, hu]
        simpa using hw
      · rwa [hvalue, hother.lowFirst_wordAt (Nat.le_refl 64) (by omega), List.append_assoc,
          ← List.take_add, ← Nat.mul_succ] at hall

/-- Where the bits end at a word, the words of others are put behind. -/
theorem concat_words (h : v.Spells bits) {other : Packed} {others : List Bool}
    (hother : other.Spells others) (haligned : v.size % 64 = 0) :
    Spells ⟨v.words ++ other.words, v.size + other.size⟩ (bits ++ others) := by
  have hwords := h.words_eq
  have hmore := hother.words_eq
  refine ⟨?_, ?_, fun i => ?_⟩
  · rw [List.length_append, ← h.size_eq, ← hother.size_eq]
  · rw [List.length_append, ← h.size_eq, ← hother.size_eq, Array.size_append]
    omega
  · rw [Packed.bit, wordAt_append, List.getElem?_append, ← h.size_eq]
    by_cases hi : i < v.size
    · rw [if_pos (by omega), if_pos hi]
      exact h.bit_eq i
    · rw [if_neg (by omega), if_neg hi, ← hother.bit_eq, Packed.bit,
        show i / 64 - v.words.size = (i - v.size) / 64 by omega,
        show i % 64 = (i - v.size) % 64 by omega]

theorem append (h : v.Spells bits) {other : Packed} {others : List Bool}
    (hother : other.Spells others) :
    ∃ w, v.append other = some w ∧ w.Spells (bits ++ others) := by
  have hsize := hother.size_eq
  have hmore := hother.words_size
  rw [Packed.append]
  by_cases haligned : v.size % 64 = 0
  · rw [if_pos haligned]
    exact ⟨_, rfl, h.concat_words hother haligned⟩
  obtain ⟨u, hu, hspells⟩ := h.append_words hother (other.size / 64) (by omega)
  simp only [if_neg haligned, guard_of (show other.size / 64 ≤ other.words.size by omega), hu,
    Option.bind_eq_bind, Option.bind_some]
  by_cases htail : other.size % 64 = 0
  · rw [if_pos htail]
    rw [List.take_of_length_le (by omega)] at hspells
    exact ⟨u, rfl, hspells⟩
  · obtain ⟨word, hword, hvalue⟩ :=
      getElem?_eq_some_wordAt (show other.size / 64 < other.words.size by omega)
    rw [if_neg htail, hword, Option.bind_some]
    obtain ⟨w, hw, hall⟩ := hspells.appendBits word (show other.size % 64 ≤ 64 by omega)
      (by rw [hvalue]; exact hother.wordAt_lt (by omega))
    refine ⟨w, hw, ?_⟩
    rwa [hvalue, hother.lowFirst_wordAt (by omega) (by omega), List.append_assoc, ← List.take_add,
      List.take_of_length_le (by omega)] at hall

/-! ## Overwriting -/

/-- The bits of a number are put in the place of as many. -/
theorem overwritten (h : v.Spells bits) {w : Packed} {pos len x : Nat}
    (hfits : pos + len ≤ bits.length) (hx : x < 2 ^ len) (hsize : w.size = v.size)
    (hwords : w.words.size = v.words.size)
    (hbit : ∀ i, w.bit i = if pos ≤ i ∧ i < pos + len then x.testBit (i - pos) else v.bit i) :
    w.Spells (bits.take pos ++ lowFirst len x ++ bits.drop (pos + len)) := by
  have hlength : (bits.take pos ++ lowFirst len x ++ bits.drop (pos + len)).length =
      bits.length := by
    simp only [List.length_append, List.length_take, length_lowFirst, List.length_drop]
    omega
  have htake : (bits.take pos).length = pos := List.length_take_of_le (by omega)
  refine ⟨by rw [hsize, h.size_eq, hlength], by rw [hwords, h.words_size, hlength], fun i => ?_⟩
  rw [hbit, h.bit_eq, List.append_assoc, List.getElem?_append, htake, List.getElem?_append,
    length_lowFirst]
  by_cases hbefore : i < pos
  · rw [if_neg (by omega), if_pos hbefore, List.getElem?_take_of_lt hbefore]
  · rw [if_neg hbefore]
    by_cases hinside : i < pos + len
    · rw [if_pos (by omega), if_pos (by omega), getD_lowFirst hx]
    · rw [if_neg (by omega), if_neg (by omega), List.getElem?_drop,
        show pos + len + (i - pos - len) = i by omega]

/-- What a mask leaves and a field sets, where the mask selects `len` bits from `pos` on. -/
theorem masked_bit {pos len x : Nat} (hx : x < 2 ^ len) {i : Nat} (old mask field : Bool)
    (hmask : mask = decide (pos ≤ i ∧ i < pos + len))
    (hfield : field = (decide (pos ≤ i) && x.testBit (i - pos))) :
    (old && !mask || field) = if pos ≤ i ∧ i < pos + len then x.testBit (i - pos) else old := by
  subst hmask hfield
  split
  · rename_i hinside
    rw [decide_eq_true hinside, decide_eq_true hinside.1, Bool.not_true, Bool.and_false,
      Bool.false_or, Bool.true_and]
  · rename_i houtside
    have hclear : (decide (pos ≤ i) && x.testBit (i - pos)) = false := by
      by_cases hi : pos ≤ i
      · rw [testBit_of_lt hx (by omega), Bool.and_false]
      · rw [decide_eq_false hi, Bool.false_and]
    rw [decide_eq_false houtside, Bool.not_false, Bool.and_true, hclear, Bool.or_false]

/-- The part of a field in the word in which it begins. -/
theorem exists_low_field (pos : Nat) {value : UInt64} {len : Nat} (hlen : len ≤ 64)
    (hfit : value.toNat < 2 ^ len) :
    ∃ mask low, shl (lowMask len).toUInt64 (pos % 64) = some mask ∧
      shl value (pos % 64) = some low ∧ ∀ i old, i / 64 = pos / 64 →
        (old && !mask.toNat.testBit (i % 64) || low.toNat.testBit (i % 64)) =
          if pos ≤ i ∧ i < pos + len then value.toNat.testBit (i - pos) else old := by
  obtain ⟨mask, hshl, hmask⟩ := exists_shl (lowMask len).toUInt64 (show pos % 64 < 64 by omega)
  obtain ⟨low, hlow, hvalue⟩ := exists_shl value (show pos % 64 < 64 by omega)
  refine ⟨mask, low, hshl, hlow, fun i old hi => masked_bit hfit _ _ _ ?_ ?_⟩
  · rw [hmask _ (by omega), testBit_mask hlen, ← Bool.decide_and]
    exact decide_eq_decide.mpr (by omega)
  · have hle : decide (pos % 64 ≤ i % 64) = decide (pos ≤ i) := decide_eq_decide.mpr (by omega)
    rw [hvalue _ (by omega), hle, show i % 64 - pos % 64 = i - pos by omega]

/-- The part of it in the word behind that one. -/
theorem exists_high_field {pos : Nat} {value : UInt64} {len : Nat} (hlen : len ≤ 64)
    (hfit : value.toNat < 2 ^ len) (hcross : 64 < pos % 64 + len) :
    ∃ mask high, shr (lowMask len).toUInt64 (64 - pos % 64) = some mask ∧
      shr value (64 - pos % 64) = some high ∧ ∀ i old, i / 64 = pos / 64 + 1 →
        (old && !mask.toNat.testBit (i % 64) || high.toNat.testBit (i % 64)) =
          if pos ≤ i ∧ i < pos + len then value.toNat.testBit (i - pos) else old := by
  obtain ⟨mask, hshr, hmask⟩ := exists_shr (lowMask len).toUInt64 (show 64 - pos % 64 < 64 by omega)
  obtain ⟨high, hhigh, hvalue⟩ := exists_shr value (show 64 - pos % 64 < 64 by omega)
  refine ⟨mask, high, hshr, hhigh, fun i old hi => masked_bit hfit _ _ _ ?_ ?_⟩
  · rw [hmask, Nat.testBit_shiftRight, testBit_mask hlen]
    exact decide_eq_decide.mpr (by omega)
  · rw [hvalue, Nat.testBit_shiftRight, decide_eq_true (by omega), Bool.true_and,
      show 64 - pos % 64 + i % 64 = i - pos by omega]

theorem setBits (h : v.Spells bits) {pos : Nat} {value : UInt64} {len : Nat} (hlen : len ≤ 64)
    (hfit : value.toNat < 2 ^ len) (hfits : pos + len ≤ bits.length) :
    ∃ w, v.setBits pos value len = some w ∧
      w.Spells (bits.take pos ++ lowFirst len value.toNat ++ bits.drop (pos + len)) := by
  have hwords := h.words_size
  simp only [Packed.setBits, guard_of (show pos + len ≤ v.size by rw [h.size_eq]; exact hfits),
    fits_of_lt hlen hfit, guard_of, Option.bind_eq_bind, Option.bind_some]
  by_cases hzero : len = 0
  · subst hzero
    exact ⟨v, rfl, by rwa [lowFirst, List.append_nil, Nat.add_zero, List.take_append_drop]⟩
  obtain ⟨mask, low, hmask, hlow, hfirst⟩ := exists_low_field pos hlen hfit
  rw [if_neg hzero, hmask, hlow, Option.bind_some, Option.bind_some, update_of_lt (by omega),
    Option.bind_some]
  by_cases hcross : 64 < pos % 64 + len
  · obtain ⟨mask', high, hmask', hhigh, hsecond⟩ := exists_high_field hlen hfit hcross
    rw [if_pos hcross, hmask', hhigh, Option.bind_some, Option.bind_some,
      update_of_lt (by rw [Array.size_modify]; omega), Option.bind_some]
    refine ⟨_, rfl, h.overwritten hfits hfit rfl (by simp only [Array.size_modify]) fun i => ?_⟩
    rw [Packed.bit, testBit_modify_replace (by rw [Array.size_modify]; omega) _ _ _ (by omega),
      testBit_modify_replace (by omega) _ _ _ (by omega)]
    by_cases hbehind : i / 64 = pos / 64 + 1
    · rw [if_pos hbehind, if_neg (by omega)]
      exact hsecond i _ hbehind
    · rw [if_neg hbehind]
      split
      · exact hfirst i _ ‹_›
      · rw [if_neg (by omega), Packed.bit]
  · rw [if_neg hcross]
    refine ⟨_, rfl, h.overwritten hfits hfit rfl (by simp only [Array.size_modify]) fun i => ?_⟩
    rw [Packed.bit, testBit_modify_replace (by omega) _ _ _ (by omega)]
    split
    · exact hfirst i _ ‹_›
    · rw [if_neg (by omega), Packed.bit]

theorem setBit (h : v.Spells bits) {pos : Nat} (hpos : pos < bits.length) :
    ∃ w, v.setBit pos = some w ∧ w.Spells (bits.set pos true) := by
  have hwords := h.words_size
  obtain ⟨one, hshl, hone⟩ := exists_shl 1 (show pos % 64 < 64 by omega)
  simp only [Packed.setBit, guard_of (show pos < v.size by rw [h.size_eq]; exact hpos), hshl,
    update_of_lt (show pos / 64 < v.words.size by omega), Option.bind_eq_bind, Option.bind_some]
  refine ⟨_, rfl, ?_, ?_, fun i => ?_⟩
  · rw [List.length_set, ← h.size_eq]
  · rw [List.length_set, Array.size_modify, hwords]
  · have hset : (decide (i / 64 = pos / 64) && one.toNat.testBit (i % 64)) = decide (pos = i) := by
      have hfirst : ∀ k, (UInt64.toNat 1).testBit k = decide (0 = k) := fun _ =>
        Nat.testBit_two_pow (n := 0)
      rw [hone _ (by omega), hfirst, ← Bool.decide_and, ← Bool.decide_and]
      exact decide_eq_decide.mpr (by omega)
    rw [Packed.bit, testBit_modify_or (by omega), hset]
    change (v.bit i || _) = _
    rw [h.bit_eq, List.getElem?_set]
    by_cases hi : pos = i
    · rw [decide_eq_true hi, Bool.or_true, if_pos hi, if_pos hpos, Option.getD_some]
    · rw [decide_eq_false hi, Bool.or_false, if_neg hi]

/-! ## Padding -/

theorem padTo (h : v.Spells bits) {alignment : Nat} (halignment : alignment.isPowerOfTwo) :
    ∃ w, v.padTo alignment = some w ∧
      w.Spells (bits ++
        List.replicate ((alignment - bits.length % alignment) % alignment) false) := by
  obtain ⟨k, rfl⟩ := halignment
  have hguard : 2 ^ (2 ^ k).log2 = 2 ^ k := by rw [Nat.log2_two_pow]
  refine ⟨_, by rw [Packed.padTo, guard_of hguard]; rfl, ?_⟩
  rw [Nat.and_two_pow_sub_one_eq_mod, BitString.add_pred_sub_mod _ (Nat.two_pow_pos k), ← h.size_eq]
  exact h.appendZeros _

theorem freeze (h : v.Spells bits) : v.freeze = some v := by
  rw [Packed.freeze, guard_of h.words_eq]
  rfl

/-! ## Readings -/

/-- The numbers of the words that a field reaches into hold its bits. -/
theorem testBit_field (h : v.Spells bits) (pos : Nat) {j : Nat} (hj : j < 64) :
    ((wordAt v.words (pos / 64)).testBit (pos % 64 + j) ||
        (decide (64 ≤ pos % 64 + j) &&
          (wordAt v.words (pos / 64 + 1)).testBit (pos % 64 + j - 64))) =
      bits[pos + j]?.getD false := by
  rw [← h.bit_eq, Packed.bit]
  by_cases hcross : 64 ≤ pos % 64 + j
  · rw [testBit_wordAt_of_le _ _ hcross, Bool.false_or, decide_eq_true hcross, Bool.true_and,
      show (pos + j) / 64 = pos / 64 + 1 by omega, show (pos + j) % 64 = pos % 64 + j - 64 by omega]
  · rw [decide_eq_false hcross, Bool.false_and, Bool.or_false,
      show (pos + j) / 64 = pos / 64 by omega, show (pos + j) % 64 = pos % 64 + j by omega]

theorem get (h : v.Spells bits) {pos : Nat} (hpos : pos < bits.length) :
    v.get pos = some bits[pos] := by
  have hwords := h.words_size
  obtain ⟨word, hword, hvalue⟩ := getElem?_eq_some_wordAt (show pos / 64 < v.words.size by omega)
  obtain ⟨shifted, hshr, hshifted⟩ := exists_shr word (show pos % 64 < 64 by omega)
  have hfirst : decide (shifted &&& 1 = 1) = shifted.toNat.testBit 0 := by
    rw [Nat.testBit_zero, ← Nat.and_one_is_mod]
    exact decide_eq_decide.mpr (by rw [← UInt64.toNat_inj, UInt64.toNat_and]; rfl)
  have hbit : shifted.toNat.testBit 0 = bits[pos] := by
    have hat := h.bit_eq pos
    rw [List.getElem?_eq_getElem hpos, Option.getD_some] at hat
    rw [hshifted, Nat.testBit_shiftRight, hvalue, ← hat]
    rfl
  simp only [Packed.get, guard_of (show pos < v.size by rw [h.size_eq]; exact hpos), hword, hshr,
    Option.bind_eq_bind, Option.bind_some, hfirst, hbit]
  rfl

/-- What is left of a word under a mask is the number that the bits of a field spell. -/
theorem toNat_and_mask {field : UInt64} {pos len : Nat} (hlen : len ≤ 64)
    (hfield : ∀ j, j < len → field.toNat.testBit j = bits[pos + j]?.getD false) :
    (field &&& (lowMask len).toUInt64).toNat = ofLowFirst ((bits.drop pos).take len) := by
  apply Nat.eq_of_testBit_eq
  intro j
  rw [UInt64.toNat_and, Nat.testBit_and, testBit_mask hlen, testBit_ofLowFirst, List.getElem?_take,
    List.getElem?_drop]
  split
  · rw [hfield j ‹_›, decide_eq_true ‹_›, Bool.and_true]
  · rw [decide_eq_false ‹_›, Bool.and_false, Option.getD_none]

/-- A field reads as the number that its bits spell. -/
theorem getBits (h : v.Spells bits) {pos len : Nat} (hlen : len ≤ 64)
    (hfits : pos + len ≤ bits.length) :
    (v.getBits pos len).map UInt64.toNat = some (ofLowFirst ((bits.drop pos).take len)) := by
  have hwords := h.words_size
  simp only [Packed.getBits, guard_of (show pos + len ≤ v.size by rw [h.size_eq]; exact hfits),
    Option.bind_eq_bind, Option.bind_some]
  by_cases hzero : len = 0
  · subst hzero
    rfl
  obtain ⟨word, hword, hvalue⟩ := getElem?_eq_some_wordAt (show pos / 64 < v.words.size by omega)
  obtain ⟨low, hshr, hlow⟩ := exists_shr word (show pos % 64 < 64 by omega)
  rw [if_neg hzero, hword, Option.bind_some, hshr, Option.bind_some]
  by_cases hinside : pos % 64 + len ≤ 64
  · rw [if_pos hinside]
    refine congrArg some (toNat_and_mask hlen fun j hj => ?_)
    rw [hlow, hvalue, Nat.testBit_shiftRight, ← h.testBit_field pos (by omega),
      decide_eq_false (show ¬ 64 ≤ pos % 64 + j by omega), Bool.false_and, Bool.or_false]
  · obtain ⟨second, hsecond, hmore⟩ :=
      getElem?_eq_some_wordAt (show pos / 64 + 1 < v.words.size by omega)
    obtain ⟨high, hshl, hhigh⟩ := exists_shl second (show 64 - pos % 64 < 64 by omega)
    rw [if_neg hinside, hsecond, Option.bind_some, hshl, Option.bind_some]
    refine congrArg some (toNat_and_mask hlen fun j hj => ?_)
    have hboundary : decide (64 - pos % 64 ≤ j) = decide (64 ≤ pos % 64 + j) :=
      decide_eq_decide.mpr (by omega)
    rw [UInt64.toNat_or, Nat.testBit_or, hlow, hvalue, Nat.testBit_shiftRight, hhigh _ (by omega),
      hmore, hboundary, show j - (64 - pos % 64) = pos % 64 + j - 64 by omega,
      h.testBit_field pos (by omega)]

/-- As bytes the words have the bits of the list, and zeros behind it. -/
theorem bitsOf_asBytes (h : v.Spells bits) :
    bitsOf v.asBytes = bits ++ List.replicate ((64 - bits.length % 64) % 64) false := by
  have hwords := h.words_size
  have hbytes : bitsOf v.asBytes = (v.words.toList.map UInt64.toNat).flatMap (lowFirst 64) := by
    rw [bitsOf, asBytes, List.flatMap_assoc, List.flatMap_map]
    exact congrArg (List.flatMap · _) (funext fun word => bitsOf_leBytes _ word.toNat_lt)
  apply List.ext_getElem?
  intro i
  rw [hbytes, getElem?_flatMap_lowFirst (by decide), List.getElem?_map, Array.getElem?_toList,
    List.getElem?_append, List.getElem?_replicate]
  have hbit := h.bit_eq i
  by_cases hi : i / 64 < v.words.size
  · obtain ⟨word, hword, hvalue⟩ := getElem?_eq_some_wordAt hi
    rw [hword, Option.map_some, Option.map_some, hvalue, ← Packed.bit, hbit]
    split
    · rw [List.getElem?_eq_getElem ‹_›, Option.getD_some]
    · rw [List.getElem?_eq_none (by omega), if_pos (by omega), Option.getD_none]
  · rw [Array.getElem?_eq_none (by omega), if_neg (by omega), if_neg (by omega)]
    rfl

theorem bytesFrom (h : v.Spells bits) {pos : Nat} (hpos : pos % 8 = 0) :
    (v.bytesFrom pos).map bitsOf =
      some ((bits ++ List.replicate ((8 - bits.length % 8) % 8) false).drop pos) := by
  have hsize := h.size_eq
  have hall := congrArg List.length h.bitsOf_asBytes
  rw [length_bitsOf, List.length_append, List.length_replicate] at hall
  have hcut : (bits ++ List.replicate ((64 - bits.length % 64) % 64) false).take
      (8 * ((v.size + 7) / 8)) = bits ++ List.replicate ((8 - bits.length % 8) % 8) false := by
    rw [List.take_append, List.take_of_length_le (by omega), List.take_replicate]
    congr 2
    omega
  simp only [Packed.bytesFrom, guard_of hpos,
    guard_of (show (v.size + 7) / 8 ≤ v.asBytes.length by omega), Option.bind_eq_bind,
    Option.bind_some]
  refine congrArg some ?_
  rw [← drop_bitsOf, ← take_bitsOf, h.bitsOf_asBytes, hcut]
  rcases Nat.le_total (pos / 8) ((v.size + 7) / 8) with hle | hge
  · rw [Nat.min_eq_left hle, show 8 * (pos / 8) = pos by omega]
  · rw [Nat.min_eq_right hge, List.drop_eq_nil_of_le, List.drop_eq_nil_of_le]
    · rw [List.length_append, List.length_replicate]
      omega
    · rw [List.length_append, List.length_replicate]
      omega

end Spells
end Packed
end Postings
