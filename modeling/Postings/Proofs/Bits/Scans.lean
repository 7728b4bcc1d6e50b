import Mathlib.Data.Nat.Factorization.Basic
import Mathlib.Order.Bounds.Basic
import Postings.Proofs.Bits.Packed
import Postings.Proofs.Bits.Rank
import Postings.Proofs.Checked

/-!
# Scans a word at a time

A machine finds the first and the last set bit of a word by counting zeros, and the `k`-th by
clearing the lowest one `k` times.  A scan cuts the first word by a mask, goes from word to
word, and takes the bits of a word off `k` before it goes on.  Where an index has no word,
something is taken off that is not there, or a word has no bit to be cleared, there is a
fault.

On the words of a bit string there is none, and every scan finds what it finds there.  What
that is can be told from the list of bits alone (`scans_match_bits`).
-/

namespace Postings
namespace Packed

/-! ## Set bits of a word -/

/-- The number of zeros beneath the lowest set bit. -/
def trailing (word : UInt64) : Nat :=
  word.toBitVec.ctz.toNat

/-- The number of zeros above the highest set bit. -/
def leading (word : UInt64) : Nat :=
  word.toBitVec.clz.toNat

/-- Clears the lowest set bit; one cannot be taken away from zero. -/
def clearLowest (word : UInt64) : Option UInt64 :=
  if word = 0 then none else some (word &&& (word - 1))

/-- The position of the lowest set bit that is left when `k` are cleared. -/
def lowestAfter (word : UInt64) : (k : Nat) → Option Nat
  | 0 => some (trailing word)
  | k + 1 => do lowestAfter (← clearLowest word) k

/-- The position of the `k`-th set bit, which there has to be. -/
def selectInWord (word : UInt64) (k : Nat) : Option Nat := do
  guard (k < popCount word.toNat)
  lowestAfter word k

theorem toBitVec_ne_zero {word : UInt64} (h : word ≠ 0) : word.toBitVec ≠ 0#64 :=
  fun hzero => h (UInt64.toBitVec_inj.mp hzero)

/-- The zeros beneath the lowest set bit tell where it is. -/
theorem head?_ones {word : UInt64} (h : word ≠ 0) :
    (ones word.toNat).head? = some (trailing word) := by
  have hset : word.toNat.testBit (trailing word) = true :=
    BitVec.getLsbD_true_ctz_of_ne_zero (toBitVec_ne_zero h)
  have hlt : trailing word < 64 := by
    by_contra hge
    rw [testBit_of_lt word.toNat_lt (Nat.not_lt.mp hge)] at hset
    cases hset
  rw [ones, List.head?_filter, List.find?_range_eq_some]
  refine ⟨hset, List.mem_range.mpr hlt, fun j hj => ?_⟩
  have hclear : word.toNat.testBit j = false := BitVec.getLsbD_false_of_lt_ctz hj
  rw [hclear]
  rfl

/-- The set bits of a word are the lowest and those that are left when it is cleared. -/
theorem ones_eq_cons {word : UInt64} (h : word ≠ 0) :
    ones word.toNat = trailing word :: ones (word &&& (word - 1)).toNat := by
  have hpos : word.toNat ≠ 0 := fun hzero => h (UInt64.toNat_inj.mp hzero)
  have hone : 1 ≤ word := UInt64.le_iff_toNat_le.mpr (Nat.pos_of_ne_zero hpos)
  have hfirst := head?_ones h
  obtain ⟨t, _, ⟨m, rfl⟩, heq⟩ := Nat.exists_eq_two_pow_mul_odd hpos
  have ht : t < 64 := by
    refine (Nat.pow_lt_pow_iff_right (show 1 < 2 by decide)).mp ?_
    refine Nat.lt_of_le_of_lt ?_ word.toNat_lt
    rw [heq]
    exact Nat.le_mul_of_pos_right _ (Nat.succ_pos _)
  rw [heq, ones_lowest ht] at hfirst
  rw [UInt64.toNat_and, UInt64.toNat_sub_of_le _ _ hone, UInt64.toNat_one, heq, and_pred,
    ones_lowest ht, Option.some.inj hfirst]

/-- The zeros above the highest set bit tell where it is. -/
theorem lastOne_eq {word : UInt64} (h : word ≠ 0) :
    leading word < 64 ∧ lastOne word.toNat = some (63 - leading word) := by
  have hlt : leading word < 64 :=
    BitVec.lt_def.mp (BitVec.clz_lt_iff_ne_zero.mpr (toBitVec_ne_zero h))
  refine ⟨hlt, BitString.lastOne_eq_some.mpr ⟨by omega, ?_, fun i hi _ => ?_⟩⟩
  · exact BitVec.getLsbD_true_clz_of_ne_zero (by decide) (toBitVec_ne_zero h)
  · exact testBit_of_lt BitVec.toNat_lt_two_pow_sub_clz (show 64 - leading word ≤ i by omega)

theorem lowestAfter_eq {word : UInt64} {k : Nat} (h : k < popCount word.toNat) :
    lowestAfter word k = Postings.selectInWord word.toNat k := by
  induction k generalizing word with
  | zero =>
      have hword : word ≠ 0 := by
        rintro rfl
        exact absurd h (by decide)
      rw [lowestAfter, Postings.selectInWord, ones_eq_cons hword, List.getElem?_cons_zero]
  | succ k ih =>
      have hword : word ≠ 0 := by
        rintro rfl
        exact absurd (Nat.lt_of_le_of_lt (Nat.zero_le _) h) (by decide)
      have hrest : k < popCount (word &&& (word - 1)).toNat := by
        rw [popCount, ones_eq_cons hword, List.length_cons] at h
        exact Nat.lt_of_succ_lt_succ h
      rw [lowestAfter, clearLowest, if_neg hword, Option.bind_eq_bind, Option.bind_some, ih hrest,
        Postings.selectInWord, Postings.selectInWord, ones_eq_cons hword, List.getElem?_cons_succ]

/-- Where there are more set bits than `k`, clearing finds the `k`-th. -/
theorem selectInWord_eq {word : UInt64} {k : Nat} (h : k < popCount word.toNat) :
    ∃ j, selectInWord word k = some j ∧ Postings.selectInWord word.toNat k = some j := by
  refine ⟨(ones word.toNat)[k], ?_, List.getElem?_eq_getElem h⟩
  rw [selectInWord, guard_of h, Option.bind_eq_bind, Option.bind_some, lowestAfter_eq h]
  exact List.getElem?_eq_getElem h

/-! ## Scans -/

/-- Words from the `w`-th on, of which `word` is what is left to be searched, are searched for
the `k`-th set bit; the words behind it are taken as `read` tells. -/
def selectWords (v : Packed) (read : UInt64 → UInt64) (w : Nat) (word : UInt64) (k : Nat) :
    Option (Option Nat) :=
  let count := popCount word.toNat
  if k < count then do
    let found := 64 * w + (← selectInWord word (k % 2 ^ 32))
    return if found < v.size then some found else none
  else if h : w + 1 < v.words.size then do
    v.selectWords read (w + 1) (read v.words[w + 1]) (← Checked.sub k count)
  else some none
termination_by v.words.size - w

/-- The position of the `k`-th set bit at or after `pos`, in words taken as `read` tells. -/
def selectFrom (v : Packed) (read : UInt64 → UInt64) (pos k : Nat) : Option (Option Nat) := do
  if v.size ≤ pos then
    return none
  let head ← shl (lowMask 64).toUInt64 (pos % 64)
  v.selectWords read (pos / 64) (read (← v.words[pos / 64]?) &&& head) k

/-- The position of the `k`-th set bit at or after `pos`. -/
def selectOne (v : Packed) (pos k : Nat) : Option (Option Nat) :=
  v.selectFrom id pos k

/-- The position of the `k`-th unset bit at or after `pos`: it is set in the complements. -/
def selectZero (v : Packed) (pos k : Nat) : Option (Option Nat) :=
  v.selectFrom (~~~ ·) pos k

/-- Words from the `w`-th on are searched for a set bit. -/
def nextWords (v : Packed) (w : Nat) (word : UInt64) : Option Nat :=
  if word ≠ 0 then
    let found := 64 * w + trailing word
    if found < v.size then some found else none
  else if h : w + 1 < v.words.size then v.nextWords (w + 1) v.words[w + 1]
  else none
termination_by v.words.size - w

/-- The position of the first set bit at or after `pos`. -/
def nextOne (v : Packed) (pos : Nat) : Option (Option Nat) := do
  if v.size ≤ pos then
    return none
  let head ← shl (lowMask 64).toUInt64 (pos % 64)
  return v.nextWords (pos / 64) ((← v.words[pos / 64]?) &&& head)

/-- Words from the `w`-th down are searched for a set bit. -/
def prevWords (v : Packed) (w : Nat) (word : UInt64) : Option (Option Nat) :=
  if word ≠ 0 then do
    return some (← Checked.sub (64 * w + 63) (leading word))
  else
    match w with
    | 0 => some none
    | w + 1 => do v.prevWords w (← v.words[w]?)

/-- The position of the last set bit strictly before `pos`. -/
def prevOne (v : Packed) (pos : Nat) : Option (Option Nat) := do
  let stop := min pos v.size
  if stop = 0 then
    return none
  let last := stop - 1
  let mask := (lowMask (last % 64 + 1)).toUInt64
  v.prevWords (last / 64) ((← v.words[last / 64]?) &&& mask)

/-- The number of set bits in `[start, stop)`. -/
def countOnes (v : Packed) (start stop : Nat) : Option Nat := do
  guard (start ≤ stop ∧ stop ≤ v.size)
  if start = stop then
    return 0
  let first := start / 64
  let last := (stop - 1) / 64
  let head ← shl (lowMask 64).toUInt64 (start % 64)
  let tail := (lowMask ((stop - 1) % 64 + 1)).toUInt64
  if first = last then
    return popCount ((← v.words[first]?) &&& head &&& tail).toNat
  let low := popCount ((← v.words[first]?) &&& head).toNat
  let between ← Checked.slice v.words.toList (first + 1) (← Checked.sub last (first + 1))
  let high := popCount ((← v.words[last]?) &&& tail).toNat
  return low + (between.map fun word => popCount word.toNat).sum + high

/-! ## Masks -/

/-- The mask of a first word leaves the bits from an offset on. -/
theorem exists_head {offset : Nat} (h : offset < 64) :
    ∃ head, shl (lowMask 64).toUInt64 offset = some head ∧
      ∀ word : UInt64, (word &&& head).toNat = (word.toNat >>> offset) <<< offset := by
  obtain ⟨head, hhead, hbit⟩ := exists_shl (lowMask 64).toUInt64 h
  refine ⟨head, hhead, fun word => Nat.eq_of_testBit_eq fun j => ?_⟩
  rw [UInt64.toNat_and, Nat.testBit_and, Nat.testBit_shiftLeft, Nat.testBit_shiftRight]
  by_cases hj : j < 64
  · rw [hbit j hj, testBit_mask (Nat.le_refl 64), decide_eq_true (show j - offset < 64 by omega),
      Bool.and_true]
    by_cases hle : offset ≤ j
    · rw [show offset + (j - offset) = j by omega, Bool.and_comm]
    · rw [decide_eq_false hle, Bool.and_false, Bool.false_and]
  · rw [testBit_of_lt word.toNat_lt (Nat.not_lt.mp hj), Bool.false_and,
      show offset + (j - offset) = j by omega, testBit_of_lt word.toNat_lt (Nat.not_lt.mp hj),
      Bool.and_false]

/-- The mask of a last word leaves the bits below a length. -/
theorem toNat_and_lowMask (word : UInt64) {len : Nat} (h : len ≤ 64) :
    (word &&& (lowMask len).toUInt64).toNat = word.toNat % 2 ^ len := by
  apply Nat.eq_of_testBit_eq
  intro j
  rw [UInt64.toNat_and, Nat.testBit_and, testBit_mask h, Nat.testBit_mod_two_pow, Bool.and_comm]

/-! ## On the words of a bit string -/

section

variable {word : Nat → Nat} {w current k j : Nat}

theorem selectWords_found (h : Postings.selectInWord current k = some j) (left : Nat) :
    BitString.selectWords word w current k left = some (64 * w + j) := by
  cases left <;> simp [BitString.selectWords, h]

theorem selectWords_last (h : Postings.selectInWord current k = none) :
    BitString.selectWords word w current k 0 = none := by
  simp [BitString.selectWords, h]

theorem selectWords_next (h : Postings.selectInWord current k = none) (left : Nat) :
    BitString.selectWords word w current k (left + 1) =
      BitString.selectWords word (w + 1) (word (w + 1)) (k - popCount current) left := by
  simp [BitString.selectWords, h]

end

theorem selectWords_eq {v : Packed} {read : UInt64 → UInt64} {word : Nat → Nat}
    (hread : ∀ w (h : w < v.words.size), (read v.words[w]).toNat = word w) {w k : Nat}
    (hw : w < v.words.size) (current : UInt64) :
    v.selectWords read w current k =
      some ((BitString.selectWords word w current.toNat k (v.words.size - w - 1)).filter
        (· < v.size)) := by
  fun_induction v.selectWords read w current k with
  | case1 w current k count hk =>
      have hword : popCount current.toNat ≤ 64 := by
        rw [popCount_eq]
        exact Nat.count_le _
      obtain ⟨j, hsel, hfound⟩ := selectInWord_eq hk
      rw [Nat.mod_eq_of_lt (by omega), hsel, selectWords_found hfound]
      simp only [Option.bind_eq_bind, Option.bind_some, Option.filter_some, decide_eq_true_eq]
      rfl
  | case2 w current k count hk h ih =>
      have hnone := selectInWord_eq_none.mpr (Nat.not_lt.mp hk)
      have hsub : Checked.sub k count = some (k - count) := if_pos (Nat.not_lt.mp hk)
      obtain ⟨left, hleft⟩ : ∃ left, v.words.size - w - 1 = left + 1 :=
        ⟨v.words.size - (w + 1) - 1, by omega⟩
      rw [hsub, Option.bind_eq_bind, Option.bind_some, ih _ h, hread, hleft, selectWords_next hnone,
        show v.words.size - (w + 1) - 1 = left by omega]
  | case3 w current k count hk h =>
      have hnone := selectInWord_eq_none.mpr (Nat.not_lt.mp hk)
      rw [show v.words.size - w - 1 = 0 by omega, selectWords_last hnone]
      rfl

/-- The next set bit is the first that is selected. -/
theorem selectWords_zero (v : Packed) (w : Nat) (current : UInt64) :
    v.selectWords id w current 0 = some (v.nextWords w current) := by
  have hcount : ∀ word : UInt64, word ≠ 0 → 0 < popCount word.toNat := by
    intro word hne
    rw [popCount, ones_eq_cons hne, List.length_cons]
    exact Nat.succ_pos _
  fun_induction v.nextWords w current with
  | case1 w current hne found hlt =>
      rw [selectWords, if_pos (hcount _ hne), selectInWord, guard_of (hcount _ hne)]
      exact congrArg some (if_pos hlt)
  | case2 w current hne found hge =>
      rw [selectWords, if_pos (hcount _ hne), selectInWord, guard_of (hcount _ hne)]
      exact congrArg some (if_neg hge)
  | case3 w current hzero h ih =>
      obtain rfl := not_not.mp hzero
      rw [selectWords, if_neg (by decide), dif_pos h]
      exact ih
  | case4 w current hzero h =>
      obtain rfl := not_not.mp hzero
      rw [selectWords, if_neg (by decide), dif_neg h]

theorem prevWords_found (v : Packed) (w : Nat) {current : UInt64} (h : current ≠ 0) :
    v.prevWords w current = some ((lastOne current.toNat).map (64 * w + ·)) := by
  obtain ⟨hlt, hlast⟩ := lastOne_eq h
  unfold prevWords
  rw [if_pos h, hlast, Checked.sub, if_pos (by omega), Option.map_some,
    Nat.add_sub_assoc (by omega)]
  rfl

theorem prevWords_eq {v : Packed} {w : Nat} (hw : w ≤ v.words.size) (current : UInt64) :
    v.prevWords w current = some (BitString.lastWords (wordAt v.words) w current.toNat) := by
  induction w generalizing current with
  | zero =>
      rw [BitString.lastWords]
      by_cases hne : current = 0
      · subst hne
        rfl
      · rw [prevWords_found v 0 hne]
        simp
  | succ w ih =>
      rw [BitString.lastWords]
      by_cases hne : current = 0
      · subst hne
        obtain ⟨word, hword, hvalue⟩ := getElem?_eq_some_wordAt (show w < v.words.size by omega)
        have hnone : lastOne (0 : UInt64).toNat = none := by decide
        rw [prevWords, if_neg (not_not.mpr rfl), hword, hnone, ← hvalue]
        exact ih (by omega) word
      · rw [prevWords_found v _ hne, (lastOne_eq hne).2]
        rfl

section

variable (v : BitString)

/-- The words of a bit string. -/
def ofBitString : Packed := ⟨v.words, v.size⟩

@[simp] theorem words_ofBitString : (ofBitString v).words = v.words := rfl

@[simp] theorem size_ofBitString : (ofBitString v).size = v.size := rfl

theorem selectFrom_eq {read : UInt64 → UInt64} {word : Nat → Nat}
    (hread : ∀ w (h : w < v.words.size), (read v.words[w]).toNat = word w) (pos k : Nat) :
    (ofBitString v).selectFrom read pos k = some (v.selectFrom word pos k) := by
  have hwords := v.words_size
  by_cases hsize : v.size ≤ pos
  · simp [selectFrom, BitString.selectFrom, hsize]
  · have hw : pos / 64 < v.words.size := by omega
    obtain ⟨head, hhead, hmask⟩ := exists_head (Nat.mod_lt pos (show 0 < 64 by decide))
    simp only [selectFrom, BitString.selectFrom, size_ofBitString, words_ofBitString,
      if_neg hsize, hhead, Array.getElem?_eq_getElem hw, Option.bind_eq_bind, Option.bind_some]
    rw [selectWords_eq hread hw, hmask, hread _ hw]
    rfl

theorem selectOne_eq (pos k : Nat) :
    (ofBitString v).selectOne pos k = some (v.selectOne pos k) := by
  refine selectFrom_eq v (fun w h => ?_) pos k
  rw [wordAt, Array.getElem?_eq_getElem h]
  rfl

theorem selectZero_eq (pos k : Nat) :
    (ofBitString v).selectZero pos k = some (v.selectZero pos k) := by
  refine selectFrom_eq v (fun w h => ?_) pos k
  rw [UInt64.toNat_not, wordAt, Array.getElem?_eq_getElem h]
  rfl

theorem nextOne_eq (pos : Nat) : (ofBitString v).nextOne pos = some (v.nextOne pos) := by
  rw [BitString.nextOne, ← selectOne_eq, selectOne, selectFrom, nextOne]
  split
  · rfl
  · simp only [selectWords_zero]
    rfl

theorem prevOne_eq (pos : Nat) : (ofBitString v).prevOne pos = some (v.prevOne pos) := by
  have hwords := v.words_size
  by_cases hstop : min pos v.size = 0
  · simp [prevOne, BitString.prevOne, hstop]
  · have hw : (min pos v.size - 1) / 64 < v.words.size := by omega
    obtain ⟨word, hword, hvalue⟩ := getElem?_eq_some_wordAt hw
    simp only [prevOne, BitString.prevOne, size_ofBitString, words_ofBitString, if_neg hstop, hword,
      Option.bind_eq_bind, Option.bind_some]
    rw [← hvalue, ← toNat_and_lowMask word (by omega)]
    exact prevWords_eq (Nat.le_of_lt hw) _

/-- The set bits of a range are those of its words. -/
theorem countOnes_eq_sum (start stop : Nat) :
    v.countOnes start stop =
      ((List.range ((stop + 63) / 64 - start / 64)).map fun i =>
        popCount (v.wordWithin start stop (start / 64 + i))).sum := by
  rw [BitString.countOnes, List.sum_eq_foldl_nat, List.foldl_map]

/-- Where a range goes on behind a word, the word is only cut at its start. -/
theorem wordWithin_of_le_stop {start stop w : Nat} (h : 64 * (w + 1) ≤ stop) :
    v.wordWithin start stop w =
      (wordAt v.words w >>> (start - 64 * w)) <<< (start - 64 * w) := by
  have hlt : wordAt v.words w < 2 ^ (stop - 64 * w) :=
    Nat.lt_of_lt_of_le (wordAt_lt _ _) (Nat.pow_le_pow_right (by decide) (by omega))
  rw [BitString.wordWithin, Nat.mod_eq_of_lt hlt]

/-- Where it begins before a word, the word is only cut at its end. -/
theorem wordWithin_of_start_le {start stop w : Nat} (h : start ≤ 64 * w) :
    v.wordWithin start stop w = wordAt v.words w % 2 ^ (stop - 64 * w) := by
  rw [BitString.wordWithin, Nat.sub_eq_zero_of_le h]
  rfl

/-- Within one word both masks are laid on it. -/
theorem countOnes_of_one {start stop : Nat} (hlt : start < stop)
    (hone : start / 64 = (stop - 1) / 64) :
    v.countOnes start stop = popCount (v.wordWithin start stop (start / 64)) := by
  rw [countOnes_eq_sum, show (stop + 63) / 64 - start / 64 = 1 by omega]
  simp

/-- Otherwise the first word and the last are cut, and those between are counted as they are. -/
theorem countOnes_of_more {start stop between : Nat}
    (hmore : (stop - 1) / 64 = start / 64 + 1 + between) :
    v.countOnes start stop =
      popCount (v.wordWithin start stop (start / 64)) +
        ((List.range between).map fun i => popCount (wordAt v.words (start / 64 + 1 + i))).sum +
        popCount (v.wordWithin start stop ((stop - 1) / 64)) := by
  have hbetween : ∀ i ∈ List.range between,
      popCount (v.wordWithin start stop (start / 64 + (i + 1))) =
        popCount (wordAt v.words (start / 64 + 1 + i)) := by
    intro i hi
    have hlt := List.mem_range.mp hi
    rw [wordWithin_of_le_stop v (by omega), Nat.sub_eq_zero_of_le (by omega), Nat.add_right_comm,
      Nat.add_assoc]
    rfl
  rw [countOnes_eq_sum, show (stop + 63) / 64 - start / 64 = between + 1 + 1 by omega,
    List.range_succ_eq_map, List.map_cons, List.sum_cons, List.map_map, List.range_succ,
    List.map_append, List.sum_append]
  simp only [Function.comp_def, Nat.succ_eq_add_one]
  rw [List.map_congr_left hbetween, hmore, Nat.add_right_comm (start / 64), Nat.add_assoc,
    Nat.add_assoc]
  simp

/-- Words that are counted one after another. -/
theorem map_popCount_slice {words : Array UInt64} {start len : Nat}
    (h : start + len ≤ words.size) :
    ((words.toList.drop start).take len).map (fun word => popCount word.toNat) =
      (List.range len).map fun i => popCount (wordAt words (start + i)) := by
  apply List.ext_getElem
  · simp
    omega
  · intro i hleft hright
    have hi : i < len := by simpa using hright
    simp [wordAt, Array.getElem?_eq_getElem (show start + i < words.size by omega)]

theorem countOnes_eq {start stop : Nat} (hle : start ≤ stop) (hstop : stop ≤ v.size) :
    (ofBitString v).countOnes start stop = some (v.countOnes start stop) := by
  have hwords := v.words_size
  by_cases heq : start = stop
  · subst heq
    have hnone := v.countOnes_add_rank (Nat.le_refl start)
    simp [countOnes, hstop, show v.countOnes start start = 0 by omega]
  obtain ⟨low, hlow, hlowValue⟩ :=
    getElem?_eq_some_wordAt (show start / 64 < v.words.size by omega)
  obtain ⟨high, hhigh, hhighValue⟩ :=
    getElem?_eq_some_wordAt (show (stop - 1) / 64 < v.words.size by omega)
  obtain ⟨head, hhead, hmask⟩ := exists_head (Nat.mod_lt start (show 0 < 64 by decide))
  simp only [countOnes, words_ofBitString, size_ofBitString, hle, hstop, and_self, guard_true,
    if_neg heq, hlow, hhigh, hhead, Option.bind_eq_bind, Option.bind_some]
  by_cases hone : start / 64 = (stop - 1) / 64
  · have hcut : v.wordWithin start stop (start / 64) =
        (low &&& head &&& (lowMask ((stop - 1) % 64 + 1)).toUInt64).toNat := by
      rw [UInt64.and_assoc, UInt64.and_comm head, ← UInt64.and_assoc, hmask,
        toNat_and_lowMask low (by omega), hlowValue, BitString.wordWithin,
        show start - 64 * (start / 64) = start % 64 by omega,
        show stop - 64 * (start / 64) = (stop - 1) % 64 + 1 by omega]
    rw [if_pos hone, countOnes_of_one v (by omega) hone, hcut]
    rfl
  · obtain ⟨between, hmore⟩ := Nat.exists_eq_add_of_le
      (show start / 64 + 1 ≤ (stop - 1) / 64 by omega)
    have hsub : Checked.sub ((stop - 1) / 64) (start / 64 + 1) = some between := by
      rw [Checked.sub, if_pos (by omega)]
      simp [hmore]
    have hfits : start / 64 + 1 + between ≤ v.words.size := by omega
    have hslice : Checked.slice v.words.toList (start / 64 + 1) between = some _ :=
      if_pos (by simpa using hfits)
    have hfirst : v.wordWithin start stop (start / 64) = (low &&& head).toNat := by
      rw [wordWithin_of_le_stop v (by omega), hmask, hlowValue,
        show start - 64 * (start / 64) = start % 64 by omega]
    have hlast : v.wordWithin start stop ((stop - 1) / 64) =
        (high &&& (lowMask ((stop - 1) % 64 + 1)).toUInt64).toNat := by
      rw [wordWithin_of_start_le v (by omega), toNat_and_lowMask high (by omega), hhighValue,
        show stop - 64 * ((stop - 1) / 64) = (stop - 1) % 64 + 1 by omega]
    rw [if_neg hone, hsub, countOnes_of_more v hmore, hfirst, hlast]
    simp only [Option.bind_some, hslice, map_popCount_slice hfits]
    rfl

end

end Packed

namespace BitString

/-! ## What there is in a list -/

/-- How many times a bit stands in `[start, stop)` of a list. -/
def occurrences (bits : List Bool) (b : Bool) (start stop : Nat) : Nat :=
  ((bits.take stop).drop start).count b

/-- The position of the `k`-th time, counted from zero, that a bit stands at or after `pos`. -/
structure IsNth (bits : List Bool) (b : Bool) (pos k p : Nat) : Prop where
  le : pos ≤ p
  getElem?_eq : bits[p]? = some b
  occurrences_eq : occurrences bits b pos p = k

/-- A scan goes without a fault.  It finds the position that is asked for, and nothing exactly
where there is none. -/
structure Finds (scanned : Option (Option Nat)) (found : Option Nat) (asked : Nat → Prop)
    (missing : Prop) : Prop where
  scanned_eq : scanned = some found
  some_iff : ∀ p, found = some p ↔ asked p
  none_iff : found = none ↔ missing

/-- It is enough that there is a position to be found unless it is missing. -/
theorem Finds.of {scanned : Option (Option Nat)} {found : Option Nat} {asked : Nat → Prop}
    {missing : Prop} (hscan : scanned = some found) (hsome : ∀ p, found = some p ↔ asked p)
    (hsound : ∀ p, asked p → ¬ missing) (hcomplete : ¬ missing → ∃ p, asked p) :
    Finds scanned found asked missing := by
  refine ⟨hscan, hsome, ?_⟩
  constructor
  · intro hnone
    by_contra hthere
    obtain ⟨p, hp⟩ := hcomplete hthere
    rw [(hsome p).mpr hp] at hnone
    cases hnone
  · intro hmissing
    exact Option.eq_none_iff_forall_ne_some.mpr fun p hp => hsound p ((hsome p).mp hp) hmissing

variable {v : BitString} {b : Bool}

theorem lt_size_of_bit {i : Nat} (h : v.bit i = true) : i < v.size := by
  by_contra hge
  rw [v.bit_eq_false_of_size_le (Nat.not_lt.mp hge)] at h
  cases h

theorem getElem?_toList_eq_true {i : Nat} : v.toList[i]? = some true ↔ v.bit i = true := by
  rw [toList_getElem?]
  split
  · simp
  · rename_i hge
    simpa using fun hset => hge (lt_size_of_bit hset)

theorem rank_eq_count {pos : Nat} (h : pos ≤ v.size) :
    v.rank b pos = (v.toList.take pos).count b := by
  induction pos with
  | zero => simp [rank]
  | succ pos ih =>
      have hget : v.toList[pos]? = some (v.bit pos) := by
        rw [toList_getElem?, if_pos (by omega)]
      rw [rank_succ, ih (by omega), List.take_add_one, hget, List.count_append]
      cases v.bit pos <;> cases b <;> simp

theorem occurrences_add_rank {start stop : Nat} (hle : start ≤ stop) (hstop : stop ≤ v.size) :
    occurrences v.toList b start stop + v.rank b start = v.rank b stop := by
  rw [occurrences, rank_eq_count hstop, rank_eq_count (Nat.le_trans hle hstop), Nat.add_comm,
    ← Nat.min_eq_left hle, ← List.take_take, ← List.count_append, Nat.min_eq_left hle,
    List.take_append_drop]

theorem isNth_iff {pos k p : Nat} :
    IsNth v.toList b pos k p ↔
      pos ≤ p ∧ p < v.size ∧ v.bit p = b ∧ v.rank b p = v.rank b pos + k := by
  have hget : v.toList[p]? = some b ↔ p < v.size ∧ v.bit p = b := by
    rw [toList_getElem?]
    split <;> simp [*]
  constructor
  · rintro ⟨hle, hp, hcount⟩
    obtain ⟨hlt, hbit⟩ := hget.mp hp
    have := occurrences_add_rank (v := v) (b := b) hle (Nat.le_of_lt hlt)
    exact ⟨hle, hlt, hbit, by omega⟩
  · rintro ⟨hle, hlt, hbit, hrank⟩
    have := occurrences_add_rank (v := v) (b := b) hle (Nat.le_of_lt hlt)
    exact ⟨hle, hget.mpr ⟨hlt, hbit⟩, by omega⟩

/-- A rank that is passed on the way to the end is the rank of a position. -/
theorem exists_of_lt_rank {n : Nat} (h : n < v.rank b v.size) :
    ∃ p < v.size, v.bit p = b ∧ v.rank b p = n := by
  have hrank : ∀ q, v.rank b q = Nat.count (fun i => (v.bit i == b) = true) q :=
    fun q => count_congr_below fun i _ => by simp
  rw [hrank, ← length_filter_range] at h
  obtain ⟨hlt, hbit, hcount⟩ := getElem?_filter_range.mp (List.getElem?_eq_getElem h)
  exact ⟨_, hlt, by simpa using hbit, by rw [hrank, hcount]⟩

/-- A selection that is right about ranks finds the `k`-th. -/
theorem finds_nth {scanned : Option (Option Nat)} {found : Option Nat} {pos k : Nat}
    (hscan : scanned = some found)
    (hfound : ∀ p, found = some p ↔
      pos ≤ p ∧ p < v.size ∧ v.bit p = b ∧ v.rank b p = v.rank b pos + k) :
    Finds scanned found (IsNth v.toList b pos k) (occurrences v.toList b pos v.size ≤ k) := by
  refine .of hscan (fun p => (hfound p).trans isNth_iff.symm) (fun p hp hfew => ?_) fun hmore => ?_
  · obtain ⟨hge, hlt, hbit, hrank⟩ := isNth_iff.mp hp
    have hin : pos ≤ v.size := by omega
    have htotal := occurrences_add_rank (v := v) (b := b) hin (Nat.le_refl _)
    have hnext : v.rank b (p + 1) ≤ v.rank b v.size := Nat.count_monotone _ hlt
    rw [rank_succ, if_pos hbit] at hnext
    omega
  · have hle : pos ≤ v.size := by
      by_contra hlt
      refine hmore (Nat.le_trans (Nat.le_of_eq ?_) (Nat.zero_le k))
      rw [occurrences, List.drop_eq_nil_of_le (by simp; omega), List.count_nil]
    have htotal := occurrences_add_rank (v := v) (b := b) hle (Nat.le_refl _)
    obtain ⟨p, hlt, hbit, hrank⟩ :=
      exists_of_lt_rank (v := v) (b := b) (n := v.rank b pos + k) (by omega)
    refine ⟨p, isNth_iff.mpr ⟨?_, hlt, hbit, hrank⟩⟩
    by_contra hp
    have := Nat.count_strict_mono (p := fun i => v.bit i = b) hbit (Nat.not_le.mp hp)
    simp only [rank] at hrank
    omega

theorem finds_next (v : BitString) (pos : Nat) :
    Finds ((Packed.ofBitString v).nextOne pos) (v.nextOne pos)
      (IsLeast {i | pos ≤ i ∧ v.toList[i]? = some true})
      (∀ i, pos ≤ i → v.toList[i]? ≠ some true) := by
  have hsome : ∀ p, v.nextOne pos = some p ↔
      IsLeast {i | pos ≤ i ∧ v.toList[i]? = some true} p := by
    intro p
    simp only [nextOne_eq_some, getElem?_toList_eq_true]
    constructor
    · rintro ⟨hle, hset, hnone⟩
      refine ⟨⟨hle, hset⟩, fun i ⟨hi, hbit⟩ => ?_⟩
      by_contra hlt
      rw [hnone i hi (Nat.not_le.mp hlt)] at hbit
      cases hbit
    · rintro ⟨⟨hle, hset⟩, hleast⟩
      refine ⟨hle, hset, fun i hi hlt => Bool.eq_false_iff.mpr fun hbit => ?_⟩
      exact Nat.not_le.mpr hlt (hleast ⟨hi, hbit⟩)
  have hsound : ∀ p, IsLeast {i | pos ≤ i ∧ v.toList[i]? = some true} p →
      ¬ ∀ i, pos ≤ i → v.toList[i]? ≠ some true :=
    fun p hp hclear => hclear p hp.1.1 hp.1.2
  refine .of (Packed.nextOne_eq v pos) hsome hsound fun hany => ?_
  have hset : ∃ i, pos ≤ i ∧ v.toList[i]? = some true := by simpa using hany
  exact ⟨Nat.find hset, Nat.find_spec hset, fun _ => Nat.find_min' hset⟩

theorem finds_prev (v : BitString) (pos : Nat) :
    Finds ((Packed.ofBitString v).prevOne pos) (v.prevOne pos)
      (IsGreatest {i | i < min pos v.size ∧ v.toList[i]? = some true})
      (∀ i, i < min pos v.size → v.toList[i]? ≠ some true) := by
  have hsome : ∀ p, v.prevOne pos = some p ↔
      IsGreatest {i | i < min pos v.size ∧ v.toList[i]? = some true} p := by
    intro p
    simp only [prevOne_eq_some, getElem?_toList_eq_true]
    constructor
    · rintro ⟨hlt, hset, hnone⟩
      have hin := lt_size_of_bit hset
      refine ⟨⟨by omega, hset⟩, fun i ⟨hi, hbit⟩ => ?_⟩
      by_contra hgt
      rw [hnone i (Nat.not_le.mp hgt) (by omega)] at hbit
      cases hbit
    · rintro ⟨⟨hlt, hset⟩, hgreatest⟩
      refine ⟨by omega, hset, fun i hi hpos => Bool.eq_false_iff.mpr fun hbit => ?_⟩
      have hin := lt_size_of_bit hbit
      exact Nat.not_le.mpr hi (hgreatest ⟨by omega, hbit⟩)
  have hsound : ∀ p, IsGreatest {i | i < min pos v.size ∧ v.toList[i]? = some true} p →
      ¬ ∀ i, i < min pos v.size → v.toList[i]? ≠ some true :=
    fun p hp hclear => hclear p hp.1.1 hp.1.2
  refine .of (Packed.prevOne_eq v pos) hsome hsound fun hany => ?_
  obtain ⟨i, hi⟩ : ∃ i, i < min pos v.size ∧ v.toList[i]? = some true := by
    simpa [and_assoc] using hany
  let P := fun i => i < min pos v.size ∧ v.toList[i]? = some true
  have hfound : P (Nat.findGreatest P (min pos v.size)) :=
    Nat.findGreatest_spec (Nat.le_of_lt hi.1) hi
  exact ⟨_, hfound, fun j hj => Nat.le_findGreatest (Nat.le_of_lt hj.1) hj⟩

/-! ## What the scans find -/

/-- On words whose bits past the end are clear no scan faults, and the list of bits tells what
is found.  The next set bit is the least that is set at or after a position, the previous one
the greatest before it and before the end.  Selections find the `k`-th that is set, or unset,
at or after a position, and find nothing only where there are no more than `k`.  The number
of set bits in a range is how many times the list has one there. -/
theorem scans_match_bits (v : BitString) :
    (∀ pos, Finds ((Packed.ofBitString v).nextOne pos) (v.nextOne pos)
      (IsLeast {i | pos ≤ i ∧ v.toList[i]? = some true})
      (∀ i, pos ≤ i → v.toList[i]? ≠ some true)) ∧
    (∀ pos, Finds ((Packed.ofBitString v).prevOne pos) (v.prevOne pos)
      (IsGreatest {i | i < min pos v.size ∧ v.toList[i]? = some true})
      (∀ i, i < min pos v.size → v.toList[i]? ≠ some true)) ∧
    (∀ pos k, Finds ((Packed.ofBitString v).selectOne pos k) (v.selectOne pos k)
      (IsNth v.toList true pos k) (occurrences v.toList true pos v.size ≤ k)) ∧
    (∀ pos k, Finds ((Packed.ofBitString v).selectZero pos k) (v.selectZero pos k)
      (IsNth v.toList false pos k) (occurrences v.toList false pos v.size ≤ k)) ∧
    ∀ start stop, start ≤ stop → stop ≤ v.size →
      (Packed.ofBitString v).countOnes start stop = some (v.countOnes start stop) ∧
      v.countOnes start stop = occurrences v.toList true start stop := by
  refine ⟨finds_next v, finds_prev v, fun pos k => ?_, fun pos k => ?_,
    fun start stop hle hstop => ⟨Packed.countOnes_eq v hle hstop, ?_⟩⟩
  · exact finds_nth (Packed.selectOne_eq v pos k) fun _ => selectOne_eq_some
  · exact finds_nth (Packed.selectZero_eq v pos k) fun _ => selectZero_eq_some
  · have hcount := v.countOnes_add_rank hle
    have hranks := occurrences_add_rank (v := v) (b := true) hle hstop
    omega

/-- A bit behind two words of which one is full. -/
theorem scans_match_bits_across_words :
    let v := (BitString.empty.appendZeros 70).push true
    (Packed.ofBitString v).nextOne 3 = some (some 70) ∧
      (Packed.ofBitString v).selectZero 60 9 = some (some 69) ∧
      (Packed.ofBitString v).countOnes 3 71 = some 1 := by
  obtain ⟨hnext, -, -, hzero, hcount⟩ :=
    scans_match_bits ((BitString.empty.appendZeros 70).push true)
  refine ⟨(hnext 3).scanned_eq.trans (by decide), (hzero 60 9).scanned_eq.trans (by decide), ?_⟩
  exact (hcount 3 71 (by decide) (by decide)).1.trans (by decide)

end BitString
end Postings
