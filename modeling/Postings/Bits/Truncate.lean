import Postings.Bits.Basic

/-!
# Cutting off the end

A truncated bit string keeps its first bits: whole words are kept as they are, and
what is left of the last one is written anew.
-/

namespace Postings
namespace BitString

/-- The bits of the first `count` words. -/
def wholeWords (v : BitString) (count : Nat) (h : 64 * count ≤ v.size) : BitString where
  words := v.words.extract 0 count
  size := 64 * count
  words_size := by
    have := v.words_size
    simp only [Array.size_extract]
    omega
  clear i hi := by
    have : (v.words.extract 0 count)[i / 64]? = none := by
      apply Array.getElem?_eq_none
      simp only [Array.size_extract]
      omega
    simp [wordAt, this]

/-- The first `len` bits. -/
def truncate (v : BitString) (len : Nat) : BitString :=
  if h : len < v.size then
    (v.wholeWords (len / 64) (by omega)).appendBits
      (v.getBits (64 * (len / 64)) (len % 64)) (len % 64)
  else v

theorem bit_wholeWords (v : BitString) {count i : Nat} (h : 64 * count ≤ v.size)
    (hi : i < 64 * count) : (v.wholeWords count h).bit i = v.bit i := by
  have hw : i / 64 < v.words.size := by
    have := v.words_size
    omega
  simp only [bit, wholeWords, wordAt, Array.getElem?_extract]
  rw [if_pos (by omega), Nat.zero_add]

/-- Whole words keep their bits. -/
theorem toList_wholeWords (v : BitString) (count : Nat) (h : 64 * count ≤ v.size) :
    (v.wholeWords count h).toList = v.toList.take (64 * count) := by
  apply List.ext_getElem?
  intro i
  rw [toList_getElem?, List.getElem?_take, toList_getElem?]
  by_cases hi : i < 64 * count
  · rw [if_pos (show i < (v.wholeWords count h).size from hi), if_pos hi, if_pos (by omega),
      bit_wholeWords v h hi]
  · rw [if_neg (show ¬ i < (v.wholeWords count h).size from hi), if_neg hi]

/-- Truncating a bit string takes the first bits of its list. -/
theorem toList_truncate (v : BitString) (len : Nat) :
    (v.truncate len).toList = v.toList.take len := by
  rw [truncate]
  split
  · rename_i h
    rw [toList_appendBits _ _ (by omega), toList_wholeWords,
      lowFirst_getBits v (by omega) (by omega), ← List.take_add,
      show 64 * (len / 64) + len % 64 = len by omega]
  · rw [List.take_of_length_le (by rw [length_toList]; omega)]

end BitString
end Postings
