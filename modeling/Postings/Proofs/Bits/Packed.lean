import Postings.Bits.View
import Postings.Proofs.Bits.Spelling

/-!
# Bits packed a word at a time

A bit string extends itself with zeros and then overwrites what it has to.  A machine goes
other ways: it pushes a word where the bits end at a word, and otherwise sets the bits of the
last one and pushes what did not fit; it copies bytes and words as they are where it can.
Here every operation is carried out so, on words and a count of bits that nothing ties
together.  Where an index has no word, a shift reaches the width of a word, or what a caller
has promised does not hold, there is a *fault*, and nothing is answered.

The number of bits is not an operand: what is in memory can be counted.
-/

namespace Postings

/-- Words, and a number of bits in them. -/
structure Packed where
  /-- The words, lowest bit first. -/
  words : Array UInt64
  /-- The number of bits. -/
  size : Nat
  deriving DecidableEq, Repr

namespace Packed

/-! ## Words -/

/-- A shift to the left by less than the width. -/
def shl (word : UInt64) (k : Nat) : Option UInt64 :=
  if k < 64 then some (word <<< k.toUInt64) else none

/-- A shift to the right by less than the width. -/
def shr (word : UInt64) (k : Nat) : Option UInt64 :=
  if k < 64 then some (word >>> k.toUInt64) else none

/-- Changes the word at an index, which has to be there. -/
def update (words : Array UInt64) (w : Nat) (f : UInt64 → UInt64) : Option (Array UInt64) :=
  if w < words.size then some (words.modify w f) else none

/-- The value has no bits from `len` on. -/
def fits (value : UInt64) (len : Nat) : Option Bool :=
  if len = 64 then some true else return (← shr value len) = 0

theorem guard_of {p : Prop} [Decidable p] (h : p) : (guard p : Option Unit) = some () :=
  if_pos h

theorem toNat_toUInt64_mod {k : Nat} (hk : k < 64) : k.toUInt64.toNat % 64 = k := by
  rw [Nat.toUInt64, UInt64.toNat_ofNat']
  omega

theorem exists_shl (word : UInt64) {k : Nat} (hk : k < 64) :
    ∃ shifted, shl word k = some shifted ∧ ∀ j, j < 64 →
      shifted.toNat.testBit j = (decide (k ≤ j) && word.toNat.testBit (j - k)) := by
  refine ⟨_, if_pos hk, fun j hj => ?_⟩
  rw [UInt64.toNat_shiftLeft, toNat_toUInt64_mod hk, Nat.testBit_mod_two_pow, Nat.testBit_shiftLeft,
    decide_eq_true hj, Bool.true_and]

theorem exists_shr (word : UInt64) {k : Nat} (hk : k < 64) :
    ∃ shifted, shr word k = some shifted ∧ shifted.toNat = word.toNat >>> k := by
  refine ⟨_, if_pos hk, ?_⟩
  rw [UInt64.toNat_shiftRight, toNat_toUInt64_mod hk]

/-- A mask selects the lowest bits. -/
theorem testBit_mask {len : Nat} (hlen : len ≤ 64) (j : Nat) :
    (lowMask len).toUInt64.toNat.testBit j = decide (j < len) := by
  have hlt : lowMask len < 2 ^ 64 := by
    have := Nat.pow_le_pow_right (show 0 < 2 by decide) hlen
    rw [lowMask, Nat.min_eq_left hlen]
    have := Nat.two_pow_pos len
    omega
  rw [Nat.toUInt64, UInt64.toNat_ofNat_of_lt' hlt, lowMask, Nat.min_eq_left hlen,
    Nat.testBit_two_pow_sub_one]

theorem fits_of_lt {value : UInt64} {len : Nat} (hlen : len ≤ 64) (h : value.toNat < 2 ^ len) :
    fits value len = some true := by
  rw [fits]
  split
  · rfl
  · obtain ⟨shifted, hshifted, hvalue⟩ := exists_shr value (show len < 64 by omega)
    have hzero : shifted = 0 := by
      rw [← UInt64.toNat_inj, hvalue, Nat.shiftRight_eq_div_pow, Nat.div_eq_of_lt h]
      rfl
    rw [hshifted, hzero]
    rfl

theorem wordAt_push (words : Array UInt64) (word : UInt64) (w : Nat) :
    wordAt (words.push word) w = if w = words.size then word.toNat else wordAt words w := by
  rw [wordAt, Array.getElem?_push]
  split
  · rfl
  · rfl

theorem wordAt_append (words others : Array UInt64) (w : Nat) :
    wordAt (words ++ others) w =
      if w < words.size then wordAt words w else wordAt others (w - words.size) := by
  rw [wordAt, Array.getElem?_append]
  split
  · rfl
  · rfl

theorem getElem?_eq_some_wordAt {words : Array UInt64} {w : Nat} (h : w < words.size) :
    ∃ word, words[w]? = some word ∧ word.toNat = wordAt words w := by
  refine ⟨words[w], Array.getElem?_eq_getElem h, ?_⟩
  rw [wordAt, Array.getElem?_eq_getElem h, Option.getD_some]

theorem update_of_lt {words : Array UInt64} {w : Nat} (h : w < words.size) (f : UInt64 → UInt64) :
    update words w f = some (words.modify w f) :=
  if_pos h

theorem wordAt_modify {words : Array UInt64} {w : Nat} (hw : w < words.size) (f : UInt64 → UInt64)
    (k : Nat) :
    wordAt (words.modify w f) k = if k = w then (f words[w]).toNat else wordAt words k := by
  rw [wordAt, Array.getElem?_modify]
  by_cases hk : k = w
  · subst hk
    rw [if_pos rfl, if_pos rfl, Array.getElem?_eq_getElem hw]
    rfl
  · rw [if_neg (Ne.symm hk), if_neg hk, wordAt]

/-- Bits are set in a word. -/
theorem testBit_modify_or {words : Array UInt64} {w : Nat} (hw : w < words.size) (field : UInt64)
    (k j : Nat) :
    (wordAt (words.modify w fun word => word ||| field) k).testBit j =
      ((wordAt words k).testBit j || (decide (k = w) && field.toNat.testBit j)) := by
  rw [wordAt_modify hw]
  by_cases hk : k = w
  · subst hk
    rw [if_pos rfl, UInt64.toNat_or, Nat.testBit_or, wordAt, Array.getElem?_eq_getElem hw]
    simp
  · simp [hk]

/-- A field of a word is cleared and set anew. -/
theorem testBit_modify_replace {words : Array UInt64} {w : Nat} (hw : w < words.size)
    (mask field : UInt64) (k : Nat) {j : Nat} (hj : j < 64) :
    (wordAt (words.modify w fun word => (word &&& ~~~mask) ||| field) k).testBit j =
      if k = w then (wordAt words k).testBit j && !mask.toNat.testBit j || field.toNat.testBit j
      else (wordAt words k).testBit j := by
  have hback : ∀ x : UInt64, x.toNat.toUInt64 = x := fun x => UInt64.ofNat_toNat
  rw [wordAt_modify hw]
  by_cases hk : k = w
  · subst hk
    have hreplaced := testBit_replaced words[k] mask.toNat field.toNat hj
    rw [hback, hback] at hreplaced
    rw [if_pos rfl, if_pos rfl, hreplaced, wordAt, Array.getElem?_eq_getElem hw]
    rfl
  · rw [if_neg hk, if_neg hk]

/-! ## Operations -/

/-- The bit at a position; false where there is no word. -/
def bit (v : Packed) (i : Nat) : Bool :=
  (wordAt v.words (i / 64)).testBit (i % 64)

theorem testBit_word (v : Packed) (w : Nat) {j : Nat} (hj : j < 64) :
    (wordAt v.words w).testBit j = v.bit (64 * w + j) := by
  rw [bit, show (64 * w + j) / 64 = w by omega, show (64 * w + j) % 64 = j by omega]

/-- The bits as a list. -/
def toList (v : Packed) : List Bool :=
  (List.range v.size).map v.bit

/-- No words. -/
def empty : Packed := ⟨#[], 0⟩

/-- Appends the `len` lowest bits of a value that has no others: into the last word, and what
does not fit there into one more. -/
def appendBits (v : Packed) (value : UInt64) (len : Nat) : Option Packed := do
  guard (len ≤ 64)
  guard (← fits value len)
  if len = 0 then
    return v
  let offset := v.size % 64
  if offset = 0 then
    return ⟨v.words.push value, v.size + len⟩
  let low ← shl value offset
  let words ← update v.words (v.words.size - 1) fun word => word ||| low
  if 64 - offset < len then
    return ⟨words.push (← shr value (64 - offset)), v.size + len⟩
  return ⟨words, v.size + len⟩

/-- Appends one bit. -/
def push (v : Packed) (b : Bool) : Option Packed :=
  v.appendBits b.toUInt64 1

/-- Appends zeros: the words are made as many as the bits need. -/
def appendZeros (v : Packed) (count : Nat) : Packed :=
  let size := v.size + count
  let needed := (size + 63) / 64
  ⟨(v.words.take needed).rightpad needed 0, size⟩

/-- Appends bytes one at a time. -/
def appendEach (v : Packed) (bytes : List UInt8) : Option Packed :=
  bytes.foldlM (fun v byte => v.appendBits byte.toUInt64 8) v

/-- Appends bytes, eight of them at a time as long as there are eight. -/
def appendChunks (v : Packed) (bytes : List UInt8) : Option Packed :=
  if 8 ≤ bytes.length then
    appendChunks ⟨v.words.push (ofLeBytes (bytes.take 8)).toUInt64, v.size + 64⟩ (bytes.drop 8)
  else v.appendEach bytes
termination_by bytes.length

/-- Appends bytes; where the bits end at a word they are taken as words. -/
def appendBytes (v : Packed) (bytes : List UInt8) : Option Packed :=
  if v.size % 64 = 0 then v.appendChunks bytes else v.appendEach bytes

/-- Appends what others have packed; where the bits end at a word its words are taken. -/
def append (v other : Packed) : Option Packed := do
  if v.size % 64 = 0 then
    return ⟨v.words ++ other.words, v.size + other.size⟩
  let full := other.size / 64
  guard (full ≤ other.words.size)
  let v ← (other.words.toList.take full).foldlM (fun v word => v.appendBits word 64) v
  let tail := other.size % 64
  if tail = 0 then
    return v
  v.appendBits (← other.words[full]?) tail

/-- Overwrites `len` bits by those of a value that has no others; the field may reach into a
second word. -/
def setBits (v : Packed) (pos : Nat) (value : UInt64) (len : Nat) : Option Packed := do
  guard (pos + len ≤ v.size)
  guard (← fits value len)
  if len = 0 then
    return v
  let mask := (lowMask len).toUInt64
  let offset := pos % 64
  let lowMask ← shl mask offset
  let low ← shl value offset
  let words ← update v.words (pos / 64) fun word => (word &&& ~~~lowMask) ||| low
  if 64 < offset + len then
    let highMask ← shr mask (64 - offset)
    let high ← shr value (64 - offset)
    return ⟨← update words (pos / 64 + 1) fun word => (word &&& ~~~highMask) ||| high, v.size⟩
  return ⟨words, v.size⟩

/-- Sets one bit. -/
def setBit (v : Packed) (pos : Nat) : Option Packed := do
  guard (pos < v.size)
  let one ← shl 1 (pos % 64)
  return ⟨← update v.words (pos / 64) fun word => word ||| one, v.size⟩

/-- Appends zeros up to a multiple of a power of two, which is found by clearing bits. -/
def padTo (v : Packed) (alignment : Nat) : Option Packed := do
  guard (2 ^ alignment.log2 = alignment)
  let above := v.size + (alignment - 1)
  return v.appendZeros (above - (above &&& (alignment - 1)) - v.size)

/-- The bits, not to be changed any more; the words have to be as many as they need. -/
def freeze (v : Packed) : Option Packed := do
  guard (v.words.size = (v.size + 63) / 64)
  return v

/-! ## Readings -/

/-- The bit at a position. -/
def get (v : Packed) (pos : Nat) : Option Bool := do
  guard (pos < v.size)
  return (← shr (← v.words[pos / 64]?) (pos % 64)) &&& 1 = 1

/-- The number in a field, which may reach into a second word. -/
def getBits (v : Packed) (pos len : Nat) : Option UInt64 := do
  guard (pos + len ≤ v.size)
  if len = 0 then
    return 0
  let mask := (lowMask len).toUInt64
  let offset := pos % 64
  let low ← shr (← v.words[pos / 64]?) offset
  if offset + len ≤ 64 then
    return low &&& mask
  let high ← shl (← v.words[pos / 64 + 1]?) (64 - offset)
  return (low ||| high) &&& mask

/-- The words as bytes, lowest byte first. -/
def asBytes (v : Packed) : List UInt8 :=
  v.words.toList.flatMap fun word => leBytes 8 word.toNat

/-- The bytes from a byte boundary to the last one that holds bits. -/
def bytesFrom (v : Packed) (pos : Nat) : Option (List UInt8) := do
  guard (pos % 8 = 0)
  let stop := (v.size + 7) / 8
  let start := min (pos / 8) stop
  guard (stop ≤ v.asBytes.length)
  return (v.asBytes.take stop).drop start

end Packed
end Postings
