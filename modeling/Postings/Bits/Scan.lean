import Postings.Bits.Basic
import Postings.Error

/-!
# Scanning a bit string

Questions about where the set bits of a bit string are.  All of them go through
the words: the first word is cut to the bits at or after the start, whole words
are then skipped by their count of set bits, and the word that holds the answer is
searched.  For unset bits the same scan reads complemented words; the complement
of the zeros past the end are ones, so an answer past the end is thrown away.
-/

namespace Postings
namespace BitString

/-! ## Forward -/

/-- The `k`-th set bit at or after the start of word `w`, of which only the bits
of `current` are still open; `left` more words follow. -/
def selectWords (word : Nat → Nat) (w current k : Nat) : (left : Nat) → Option Nat
  | 0 => (selectInWord current k).map (64 * w + ·)
  | left + 1 =>
      match selectInWord current k with
      | some j => some (64 * w + j)
      | none => selectWords word (w + 1) (word (w + 1)) (k - popCount current) left

/-- The `k`-th set bit at or after `pos` of the words that `word` gives. -/
def selectFrom (v : BitString) (word : Nat → Nat) (pos k : Nat) : Option Nat :=
  if v.size ≤ pos then none
  else
    let first := (word (pos / 64) >>> (pos % 64)) <<< (pos % 64)
    (selectWords word (pos / 64) first k (v.words.size - pos / 64 - 1)).filter (· < v.size)

/-- The position of the `k`-th set bit at or after `pos`, counted from zero. -/
def selectOne (v : BitString) (pos k : Nat) : Option Nat :=
  v.selectFrom (wordAt v.words) pos k

/-- The position of the `k`-th unset bit at or after `pos`, counted from zero. -/
def selectZero (v : BitString) (pos k : Nat) : Option Nat :=
  v.selectFrom (fun w => 2 ^ 64 - 1 - wordAt v.words w) pos k

/-- The position of the first set bit at or after `pos`. -/
def nextOne (v : BitString) (pos : Nat) : Option Nat :=
  v.selectOne pos 0

/-! ## Backward -/

/-- The last set bit up to word `w`, of which only the bits of `current` are still
open. -/
def lastWords (word : Nat → Nat) : (w current : Nat) → Option Nat
  | 0, current => lastOne current
  | w + 1, current =>
      match lastOne current with
      | some j => some (64 * (w + 1) + j)
      | none => lastWords word w (word w)

/-- The position of the last set bit strictly before `pos`. -/
def prevOne (v : BitString) (pos : Nat) : Option Nat :=
  let stop := min pos v.size
  if stop = 0 then none
  else
    let last := stop - 1
    lastWords (wordAt v.words) (last / 64) (wordAt v.words (last / 64) % 2 ^ (last % 64 + 1))

/-! ## Counting -/

/-- The bits of word `w` that lie in `[start, stop)`. -/
def wordWithin (v : BitString) (start stop w : Nat) : Nat :=
  let low := start - 64 * w
  ((wordAt v.words w % 2 ^ (stop - 64 * w)) >>> low) <<< low

/-- The number of set bits in `[start, stop)`. -/
def countOnes (v : BitString) (start stop : Nat) : Nat :=
  (List.range ((stop + 63) / 64 - start / 64)).foldl
    (fun count i => count + popCount (v.wordWithin start stop (start / 64 + i))) 0

/-! ## Ranges -/

/-- Refuses unless `[pos, pos + bits)` lies within the bit string.  The size that
the range would need is reported in 64 bits. -/
def checkRange (v : BitString) (element : String) (pos bits : Nat) : Except Error Unit :=
  if pos + bits ≤ v.size then .ok ()
  else .error (.regionTooShort element (min (pos + bits) (2 ^ 64 - 1)) v.size)

end BitString
end Postings
