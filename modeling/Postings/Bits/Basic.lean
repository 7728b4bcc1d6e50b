import Postings.Bits.Words
import Postings.Word

/-!
# Bit strings

A bit string is a sequence of bits packed into 64-bit words, lowest bit first.
It grows at its end, and bits that were written can be overwritten in place.  The
type keeps two facts about the packing: there are exactly as many words as the
bits need, and in the last word the bits past the end are zero.  So two bit
strings with the same bits are the same bit string (`BitString.ext_bit`), and the
words can be stored and compared as they are.

The view of a bit string is `bit`, one Boolean for each position, false past the
end.  Every operation comes with the equation that tells what it does to `size`
and to `bit`; `toList` is the same view as a list.

Both ways of writing rest on two operations: `appendZeros` extends the string,
and `setBits` overwrites a field of at most 64 bits, which may straddle two words.
Appending a field is extending by its width and overwriting the new bits.
-/

namespace Postings

/-! ## The type -/

/-- A sequence of bits packed into words. -/
structure BitString where
  /-- The words, lowest bit first. -/
  words : Array UInt64
  /-- The number of bits. -/
  size : Nat
  /-- There are as many words as the bits need. -/
  words_size : words.size = (size + 63) / 64
  /-- Bits past the end are zero. -/
  clear : ∀ i, size ≤ i → (wordAt words (i / 64)).testBit (i % 64) = false

namespace BitString

/-- The bit at a position; false past the end. -/
def bit (v : BitString) (i : Nat) : Bool :=
  (wordAt v.words (i / 64)).testBit (i % 64)

/-- The bits as a list. -/
def toList (v : BitString) : List Bool :=
  (List.range v.size).map v.bit

/-- No bits are there. -/
def isEmpty (v : BitString) : Bool :=
  v.size == 0

theorem bit_eq_false_of_size_le (v : BitString) {i : Nat} (h : v.size ≤ i) :
    v.bit i = false :=
  v.clear i h

@[simp] theorem length_toList (v : BitString) : v.toList.length = v.size := by
  simp [toList]

theorem toList_getElem? (v : BitString) (i : Nat) :
    v.toList[i]? = if i < v.size then some (v.bit i) else none := by
  by_cases h : i < v.size <;> simp [toList, h]

theorem testBit_wordAt (v : BitString) {w j : Nat} (hj : j < 64) :
    (wordAt v.words w).testBit j = v.bit (64 * w + j) := by
  rw [bit, show (64 * w + j) / 64 = w by omega, show (64 * w + j) % 64 = j by omega]

/-- A bit string is determined by its size and its bits. -/
theorem ext_bit {a b : BitString} (hsize : a.size = b.size)
    (hbit : ∀ i, i < a.size → a.bit i = b.bit i) : a = b := by
  have hall : ∀ i, a.bit i = b.bit i := by
    intro i
    by_cases h : i < a.size
    · exact hbit i h
    · rw [bit_eq_false_of_size_le a (by omega), bit_eq_false_of_size_le b (by omega)]
  have hword : ∀ w, wordAt a.words w = wordAt b.words w := by
    intro w
    apply Nat.eq_of_testBit_eq
    intro j
    by_cases hj : j < 64
    · rw [testBit_wordAt a hj, testBit_wordAt b hj, hall]
    · rw [testBit_wordAt_of_le _ _ (by omega), testBit_wordAt_of_le _ _ (by omega)]
  have hwords : a.words = b.words := by
    apply Array.ext
    · rw [a.words_size, b.words_size, hsize]
    · intro w h1 h2
      have := hword w
      rw [wordAt, wordAt, Array.getElem?_eq_getElem h1, Array.getElem?_eq_getElem h2] at this
      exact UInt64.toNat_inj.mp this
  cases a
  cases b
  simp_all

/-- Two bit strings with the same list of bits are equal. -/
theorem toList_inj {a b : BitString} : a.toList = b.toList ↔ a = b := by
  constructor
  · intro h
    have hsize : a.size = b.size := by rw [← length_toList a, h, length_toList]
    refine ext_bit hsize fun i hi => ?_
    have hget : a.toList[i]? = b.toList[i]? := by rw [h]
    rw [toList_getElem?, toList_getElem?, if_pos hi, if_pos (hsize ▸ hi)] at hget
    exact Option.some.inj hget
  · intro h
    rw [h]

/-- Bit strings are equal when their words are. -/
instance : DecidableEq BitString := fun a b =>
  if h : a.size = b.size ∧ a.words = b.words then
    .isTrue (by cases a; cases b; simp_all)
  else .isFalse (by rintro rfl; simp at h)

/-! ## The two primitive operations -/

/-- The bit string without bits. -/
def empty : BitString where
  words := #[]
  size := 0
  words_size := rfl
  clear := by simp [wordAt]

/-- Appends `count` zero bits. -/
def appendZeros (v : BitString) (count : Nat) : BitString where
  words := v.words ++ Array.replicate ((v.size + count + 63) / 64 - v.words.size) 0
  size := v.size + count
  words_size := by
    have := v.words_size
    simp only [Array.size_append, Array.size_replicate]
    omega
  clear i h := by
    rw [wordAt_append_zeros]
    exact v.clear i (by omega)

@[simp] theorem size_empty : empty.size = 0 := rfl

@[simp] theorem bit_empty (i : Nat) : empty.bit i = false := by
  simp [bit, empty, wordAt]

@[simp] theorem size_appendZeros (v : BitString) (count : Nat) :
    (v.appendZeros count).size = v.size + count := rfl

@[simp] theorem bit_appendZeros (v : BitString) (count i : Nat) :
    (v.appendZeros count).bit i = v.bit i := by
  simp [bit, appendZeros]

/-- The width of a field at `pos` that can be overwritten: at most a word, and
nothing past the end. -/
def fieldWidth (v : BitString) (pos len : Nat) : Nat :=
  min (min len 64) (v.size - pos)

/-- The words after a field has been overwritten. -/
def fieldWords (v : BitString) (pos value len : Nat) : Array UInt64 :=
  let width := v.fieldWidth pos len
  let mask := (2 ^ width - 1) <<< (pos % 64)
  let field := (value % 2 ^ width) <<< (pos % 64)
  overwrite (overwrite v.words (pos / 64) mask field) (pos / 64 + 1) (mask >>> 64) (field >>> 64)

theorem testBit_fieldWords (v : BitString) (pos value len i : Nat) :
    (wordAt (v.fieldWords pos value len) (i / 64)).testBit (i % 64) =
      if pos ≤ i ∧ i < pos + v.fieldWidth pos len then value.testBit (i - pos) else v.bit i := by
  have hj : i % 64 < 64 := Nat.mod_lt _ (by omega)
  have hsize := v.words_size
  have hwidth : v.fieldWidth pos len ≤ 64 ∧ v.fieldWidth pos len ≤ v.size - pos := by
    simp only [fieldWidth]
    omega
  rw [fieldWords, testBit_wordAt_overwrite _ _ _ _ _ hj, size_overwrite,
    testBit_wordAt_overwrite _ _ _ _ _ hj]
  have hbit : (wordAt v.words (i / 64)).testBit (i % 64) = v.bit i := rfl
  simp only [hbit, Nat.testBit_shiftRight, Nat.testBit_shiftLeft, Nat.testBit_mod_two_pow,
    Nat.testBit_two_pow_sub_one]
  generalize v.fieldWidth pos len = width at hwidth
  by_cases h1 : i / 64 = pos / 64
  · have hsub : i % 64 - pos % 64 = i - pos := by omega
    by_cases hin : pos ≤ i ∧ i < pos + width
    · have hw : pos / 64 < v.words.size := by omega
      simp [h1, hw, hin, hsub, show i - pos < width by omega, show pos % 64 ≤ i % 64 by omega]
    · have hnot : (decide (i % 64 ≥ pos % 64) && decide (i - pos < width)) = false := by
        simp only [Bool.and_eq_false_iff, decide_eq_false_iff_not]
        omega
      by_cases hge : i % 64 ≥ pos % 64
      · have hlt : ¬ i - pos < width := by simpa [hge] using hnot
        simp [h1, hin, hsub, hlt]
      · simp [h1, hin, hge]
  · by_cases h2 : i / 64 = pos / 64 + 1
    · have hsub : 64 + i % 64 - pos % 64 = i - pos := by omega
      have hge : 64 + i % 64 ≥ pos % 64 := by omega
      by_cases hin : pos ≤ i ∧ i < pos + width
      · have hw : pos / 64 + 1 < v.words.size := by omega
        simp [h2, hw, hin, hsub, hge, show i - pos < width by omega]
      · have hlt : ¬ i - pos < width := by omega
        simp [h2, hin, hsub, hlt]
    · have hin : ¬ (pos ≤ i ∧ i < pos + width) := by omega
      simp [h1, h2, hin]

/-- Overwrites the field of `len ≤ 64` bits at `pos` by the lowest bits of
`value`.  Bits past the end are not touched. -/
def setBits (v : BitString) (pos value len : Nat) : BitString where
  words := v.fieldWords pos value len
  size := v.size
  words_size := by simp [fieldWords, v.words_size]
  clear i h := by
    rw [testBit_fieldWords]
    have : ¬ (pos ≤ i ∧ i < pos + v.fieldWidth pos len) := by
      simp only [fieldWidth]
      omega
    rw [if_neg this, bit_eq_false_of_size_le v h]

@[simp] theorem size_setBits (v : BitString) (pos value len : Nat) :
    (v.setBits pos value len).size = v.size := rfl

theorem bit_setBits (v : BitString) (pos value len i : Nat) :
    (v.setBits pos value len).bit i =
      if pos ≤ i ∧ i < pos + v.fieldWidth pos len then value.testBit (i - pos) else v.bit i :=
  testBit_fieldWords v pos value len i

/-! ## Appending -/

/-- Appends the `len ≤ 64` lowest bits of `value`. -/
def appendBits (v : BitString) (value len : Nat) : BitString :=
  (v.appendZeros (min len 64)).setBits v.size value len

/-- Appends one bit. -/
def push (v : BitString) (b : Bool) : BitString :=
  v.appendBits b.toNat 1

/-- Sets one bit that has been written. -/
def setBit (v : BitString) (pos : Nat) : BitString :=
  v.setBits pos 1 1

/-- Appends whole bytes, first byte first. -/
def appendBytes (v : BitString) (bytes : List UInt8) : BitString :=
  bytes.foldl (fun v byte => v.appendBits byte.toNat 8) v

/-- Appends the bits of another bit string, a word at a time. -/
def append (v other : BitString) : BitString :=
  (List.range ((other.size + 63) / 64)).foldl
    (fun v w => v.appendBits (wordAt other.words w) (min 64 (other.size - 64 * w))) v

/-- Extends with zeros up to the next multiple of `alignment` bits. -/
def padTo (v : BitString) (alignment : Nat) : BitString :=
  v.appendZeros (padding v.size alignment)

instance : Append BitString := ⟨append⟩

@[simp] theorem size_appendBits (v : BitString) (value len : Nat) :
    (v.appendBits value len).size = v.size + min len 64 := rfl

theorem bit_appendBits (v : BitString) (value len i : Nat) :
    (v.appendBits value len).bit i =
      if v.size ≤ i ∧ i < v.size + min len 64 then value.testBit (i - v.size) else v.bit i := by
  rw [appendBits, bit_setBits, bit_appendZeros]
  have : (v.appendZeros (min len 64)).fieldWidth v.size len = min len 64 := by
    simp only [fieldWidth, size_appendZeros]
    omega
  rw [this]

@[simp] theorem toList_empty : empty.toList = [] := rfl

/-- Appending a field appends its bits, least significant first. -/
theorem toList_appendBits (v : BitString) (value : Nat) {len : Nat} (h : len ≤ 64) :
    (v.appendBits value len).toList = v.toList ++ lowFirst len value := by
  apply List.ext_getElem?
  intro i
  rw [toList_getElem?, List.getElem?_append, toList_getElem?, lowFirst_getElem?, bit_appendBits,
    size_appendBits, length_toList, Nat.min_eq_left h]
  by_cases h1 : i < v.size
  · simp [h1, show i < v.size + len by omega, show ¬ v.size ≤ i by omega]
  · by_cases h2 : i < v.size + len
    · simp [h1, h2, show v.size ≤ i by omega, show i - v.size < len by omega]
    · simp [h1, h2, show ¬ i - v.size < len by omega]

/-! ## Reading -/

/-- The field of `len ≤ 64` bits at `pos`, as a number. -/
def getBits (v : BitString) (pos len : Nat) : Nat :=
  ((wordAt v.words (pos / 64) + wordAt v.words (pos / 64 + 1) <<< 64) >>> (pos % 64)) % 2 ^ len

/-- Byte `i` of the packing: bits `8 * i` to `8 * i + 7`. -/
def byteAt (v : BitString) (i : Nat) : UInt8 :=
  (wordAt v.words (i / 8) >>> (8 * (i % 8))).toUInt8

/-- The bytes from the byte-aligned position `pos` to the last byte that holds
bits of the string. -/
def bytesFrom (v : BitString) (pos : Nat) : List UInt8 :=
  let start := pos / 8
  (List.range ((v.size + 7) / 8 - start)).map fun i => v.byteAt (start + i)

/-- All bytes that hold bits of the string. -/
def toBytes (v : BitString) : List UInt8 :=
  v.bytesFrom 0

/-- The bit string that packs the given bytes. -/
def ofBytes (bytes : List UInt8) : BitString :=
  empty.appendBytes bytes

theorem testBit_getBits (v : BitString) (pos : Nat) {len j : Nat} (h : len ≤ 64) :
    (v.getBits pos len).testBit j = (decide (j < len) && v.bit (pos + j)) := by
  rw [getBits, Nat.testBit_mod_two_pow, Nat.testBit_shiftRight, Nat.add_comm (wordAt _ _),
    Nat.shiftLeft_add_eq_or_of_lt (wordAt_lt _ _), Nat.testBit_or, Nat.testBit_shiftLeft]
  by_cases hj : j < len
  · simp only [hj, decide_true, Bool.true_and]
    by_cases hcross : pos % 64 + j < 64
    · rw [testBit_wordAt v hcross]
      simp [show ¬ (pos % 64 + j ≥ 64) by omega,
        show 64 * (pos / 64) + (pos % 64 + j) = pos + j by omega]
    · rw [testBit_wordAt_of_le _ _ (show 64 ≤ pos % 64 + j by omega),
        testBit_wordAt v (show pos % 64 + j - 64 < 64 by omega)]
      simp [show pos % 64 + j ≥ 64 by omega,
        show 64 * (pos / 64 + 1) + (pos % 64 + j - 64) = pos + j by omega]
  · simp [hj]

theorem getBits_lt (v : BitString) (pos len : Nat) : v.getBits pos len < 2 ^ len :=
  Nat.mod_lt _ (Nat.two_pow_pos _)

/-- A field is read as the number that its bits spell. -/
theorem lowFirst_getBits (v : BitString) {pos len : Nat} (hlen : len ≤ 64)
    (h : pos + len ≤ v.size) :
    lowFirst len (v.getBits pos len) = (v.toList.drop pos).take len := by
  apply List.ext_getElem?
  intro i
  rw [lowFirst_getElem?, List.getElem?_take, List.getElem?_drop, toList_getElem?,
    testBit_getBits v pos hlen]
  by_cases hi : i < len
  · simp [hi, show pos + i < v.size by omega]
  · simp [hi]

end BitString

end Postings
