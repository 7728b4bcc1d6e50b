import Postings.Proofs.Bits.InPlace
import Postings.Proofs.Bits.Spells

/-!
# Scripts of writes

A script is what a writer does to an empty bit string, write after write; what it appends may
be the outcome of another script.  It is carried out three ways: on a list of bits, where
every write is what its name says; as a bit string; and on words, the way a machine goes.  A
script is *allowed* when every value fits its field and every field that is overwritten has
been written.

The three go together.  One write takes words that spell a list to words that spell the next
one, whichever way its path goes, so an allowed script has no fault and its words spell its
list; the bit string has the same list, and so the same words.
-/

namespace Postings

/-! ## Scripts -/

/-- Writes to an empty bit string, the last one outermost. -/
inductive Script where
  | start
  | push (s : Script) (b : Bool)
  | appendBits (s : Script) (value len : Nat)
  | appendZeros (s : Script) (count : Nat)
  | appendBytes (s : Script) (bytes : List UInt8)
  | append (s other : Script)
  | setBits (s : Script) (pos value len : Nat)
  | setBit (s : Script) (pos : Nat)
  | padTo (s : Script) (alignment : Nat)

namespace Script

/-- The list of bits that a script leaves. -/
def spelled : Script → List Bool
  | start => []
  | push s b => s.spelled ++ [b]
  | appendBits s value len => s.spelled ++ lowFirst len value
  | appendZeros s count => s.spelled ++ List.replicate count false
  | appendBytes s bytes => s.spelled ++ bitsOf bytes
  | append s other => s.spelled ++ other.spelled
  | setBits s pos value len =>
      s.spelled.take pos ++ lowFirst len value ++ s.spelled.drop (pos + len)
  | setBit s pos => s.spelled.set pos true
  | padTo s alignment =>
      s.spelled ++ List.replicate ((alignment - s.spelled.length % alignment) % alignment) false

/-- The values fit their fields, and what is overwritten has been written. -/
def Allowed : Script → Prop
  | start => True
  | push s _ => s.Allowed
  | appendBits s value len => s.Allowed ∧ len ≤ 64 ∧ value < 2 ^ len
  | appendZeros s _ => s.Allowed
  | appendBytes s _ => s.Allowed
  | append s other => s.Allowed ∧ other.Allowed
  | setBits s pos value len =>
      s.Allowed ∧ len ≤ 64 ∧ value < 2 ^ len ∧ pos + len ≤ s.spelled.length
  | setBit s pos => s.Allowed ∧ pos < s.spelled.length
  | padTo s alignment => s.Allowed ∧ alignment.isPowerOfTwo

/-- The bit string that a script leaves. -/
def build : Script → BitString
  | start => .empty
  | push s b => s.build.push b
  | appendBits s value len => s.build.appendBits value len
  | appendZeros s count => s.build.appendZeros count
  | appendBytes s bytes => s.build.appendBytes bytes
  | append s other => s.build ++ other.build
  | setBits s pos value len => s.build.setBits pos value len
  | setBit s pos => s.build.setBit pos
  | padTo s alignment => s.build.padTo alignment

/-- The words that a script leaves, if nothing faults. -/
def pack : Script → Option Packed
  | start => some .empty
  | push s b => do (← s.pack).push b
  | appendBits s value len => do (← s.pack).appendBits value.toUInt64 len
  | appendZeros s count => return (← s.pack).appendZeros count
  | appendBytes s bytes => do (← s.pack).appendBytes bytes
  | append s other => do (← s.pack).append (← other.pack)
  | setBits s pos value len => do (← s.pack).setBits pos value.toUInt64 len
  | setBit s pos => do (← s.pack).setBit pos
  | padTo s alignment => do (← s.pack).padTo alignment

end Script

/-! ## Bit strings -/

namespace BitString

theorem toList_setBit (v : BitString) {pos : Nat} (hpos : pos < v.size) :
    (v.setBit pos).toList = v.toList.set pos true := by
  apply List.ext_getElem?
  intro i
  rw [toList_getElem?, size_setBit, bit_setBit v hpos, List.getElem?_set, toList_getElem?,
    length_toList]
  by_cases hi : pos = i
  · subst hi
    simp [hpos]
  · simp [hi, Ne.symm hi]

/-- Readings answer from a list of bits. -/
structure Reads (v : BitString) (bits : List Bool) : Prop where
  bit_eq : ∀ pos (h : pos < bits.length), v.bit pos = bits[pos]
  getBits_eq : ∀ pos len, len ≤ 64 → pos + len ≤ bits.length →
    v.getBits pos len = ofLowFirst ((bits.drop pos).take len)
  bytesFrom_eq : ∀ pos, pos % 8 = 0 →
    bitsOf (v.bytesFrom pos) =
      (bits ++ List.replicate ((8 - bits.length % 8) % 8) false).drop pos

theorem bitsOf_bytesFrom (v : BitString) {pos : Nat} (hpos : pos % 8 = 0) :
    bitsOf (v.bytesFrom pos) =
      (v.toList ++ List.replicate ((8 - v.size % 8) % 8) false).drop pos := by
  have hbytes : bitsOf (v.bytesFrom pos) =
      ((v.bytesFrom pos).map UInt8.toNat).flatMap (lowFirst 8) := by
    rw [List.flatMap_map]
    rfl
  apply List.ext_getElem?
  intro i
  rw [hbytes, getElem?_flatMap_lowFirst (by decide), bytesFrom, List.getElem?_map,
    List.getElem?_map, List.getElem?_drop, List.getElem?_append, toList_getElem?, length_toList,
    List.getElem?_replicate]
  by_cases hi : i / 8 < (v.size + 7) / 8 - pos / 8
  · rw [List.getElem?_range hi, Option.map_some, Option.map_some, Option.map_some, toNat_byteAt,
      testBit_getBits _ _ (by decide), decide_eq_true (by omega), Bool.true_and,
      show 8 * (pos / 8 + i / 8) + i % 8 = pos + i by omega]
    by_cases hend : pos + i < v.size
    · rw [if_pos hend, if_pos hend]
    · rw [if_neg hend, if_pos (by omega), v.bit_eq_false_of_size_le (by omega)]
  · rw [List.getElem?_eq_none (by rw [List.length_range]; omega), if_neg (by omega),
      if_neg (by omega)]
    rfl

theorem reads (v : BitString) : v.Reads v.toList where
  bit_eq pos h := by simp [toList]
  getBits_eq pos len hlen hfits := by
    rw [← lowFirst_getBits v hlen (by rwa [length_toList] at hfits), ofLowFirst_lowFirst,
      Nat.mod_eq_of_lt (v.getBits_lt pos len)]
  bytesFrom_eq pos hpos := by rw [v.bitsOf_bytesFrom hpos, length_toList]

end BitString

/-! ## Words -/

/-- Readings of words answer from a list of bits, without a fault. -/
structure Packed.Reads (v : Packed) (bits : List Bool) : Prop where
  get_eq : ∀ pos (h : pos < bits.length), v.get pos = some bits[pos]
  getBits_eq : ∀ pos len, len ≤ 64 → pos + len ≤ bits.length →
    (v.getBits pos len).map UInt64.toNat = some (ofLowFirst ((bits.drop pos).take len))
  bytesFrom_eq : ∀ pos, pos % 8 = 0 →
    (v.bytesFrom pos).map bitsOf =
      some ((bits ++ List.replicate ((8 - bits.length % 8) % 8) false).drop pos)
  asBytes_eq : bitsOf v.asBytes = bits ++ List.replicate ((64 - bits.length % 64) % 64) false

theorem Packed.Spells.reads {v : Packed} {bits : List Bool} (h : v.Spells bits) : v.Reads bits where
  get_eq _ hpos := h.get hpos
  getBits_eq _ _ hlen hfits := h.getBits hlen hfits
  bytesFrom_eq _ hpos := h.bytesFrom hpos
  asBytes_eq := h.bitsOf_asBytes

/-! ## Refinement -/

namespace Script

/-- The bit string of a script has its list. -/
theorem toList_build {s : Script} (h : s.Allowed) : s.build.toList = s.spelled := by
  induction s with
  | start => rfl
  | push s b ih => rw [build, BitString.toList_push, ih h, spelled]
  | appendBits s value len ih => rw [build, BitString.toList_appendBits _ _ h.2.1, ih h.1, spelled]
  | appendZeros s count ih => rw [build, BitString.toList_appendZeros, ih h, spelled]
  | appendBytes s bytes ih =>
      rw [build, BitString.toList_appendBytes, ih h, spelled]
      rfl
  | append s other ih ihother => rw [build, BitString.toList_append, ih h.1, ihother h.2, spelled]
  | setBits s pos value len ih =>
      obtain ⟨hs, hlen, -, hfits⟩ := h
      rw [← ih hs, BitString.length_toList] at hfits
      rw [build, BitString.toList_setBits _ _ _ hlen hfits, ih hs, spelled]
  | setBit s pos ih =>
      obtain ⟨hs, hpos⟩ := h
      rw [← ih hs, BitString.length_toList] at hpos
      rw [build, BitString.toList_setBit _ hpos, ih hs, spelled]
  | padTo s alignment ih =>
      obtain ⟨hs, k, rfl⟩ := h
      rw [build, BitString.toList_padTo, BitString.padding_eq _ (Nat.two_pow_pos k), ih hs,
        ← BitString.length_toList, ih hs, spelled]

/-- An allowed script goes without a fault, and its words spell its list. -/
theorem exists_pack {s : Script} (h : s.Allowed) : ∃ v, s.pack = some v ∧ v.Spells s.spelled := by
  have hword : ∀ {value len : Nat}, len ≤ 64 → value < 2 ^ len → value.toUInt64.toNat = value :=
    fun hlen hvalue => UInt64.toNat_ofNat_of_lt'
      (Nat.lt_of_lt_of_le hvalue (Nat.pow_le_pow_right (by decide) hlen))
  induction s with
  | start => exact ⟨.empty, rfl, .of_bitString .empty⟩
  | push s b ih =>
      obtain ⟨v, hv, hspells⟩ := ih h
      obtain ⟨w, hw, hnext⟩ := hspells.push b
      exact ⟨w, by rw [pack, hv]; exact hw, hnext⟩
  | appendBits s value len ih =>
      obtain ⟨hs, hlen, hvalue⟩ := h
      obtain ⟨v, hv, hspells⟩ := ih hs
      obtain ⟨w, hw, hnext⟩ := hspells.appendBits value.toUInt64 hlen (by rwa [hword hlen hvalue])
      rw [hword hlen hvalue] at hnext
      exact ⟨w, by rw [pack, hv]; exact hw, hnext⟩
  | appendZeros s count ih =>
      obtain ⟨v, hv, hspells⟩ := ih h
      exact ⟨_, by rw [pack, hv]; rfl, hspells.appendZeros count⟩
  | appendBytes s bytes ih =>
      obtain ⟨v, hv, hspells⟩ := ih h
      obtain ⟨w, hw, hnext⟩ := hspells.appendBytes bytes
      exact ⟨w, by rw [pack, hv]; exact hw, hnext⟩
  | append s other ih ihother =>
      obtain ⟨v, hv, hspells⟩ := ih h.1
      obtain ⟨u, hu, hothers⟩ := ihother h.2
      obtain ⟨w, hw, hnext⟩ := hspells.append hothers
      exact ⟨w, by rw [pack, hv, hu]; exact hw, hnext⟩
  | setBits s pos value len ih =>
      obtain ⟨hs, hlen, hvalue, hfits⟩ := h
      obtain ⟨v, hv, hspells⟩ := ih hs
      obtain ⟨w, hw, hnext⟩ := hspells.setBits hlen (by rwa [hword hlen hvalue]) hfits
      rw [hword hlen hvalue] at hnext
      exact ⟨w, by rw [pack, hv]; exact hw, hnext⟩
  | setBit s pos ih =>
      obtain ⟨v, hv, hspells⟩ := ih h.1
      obtain ⟨w, hw, hnext⟩ := hspells.setBit h.2
      exact ⟨w, by rw [pack, hv]; exact hw, hnext⟩
  | padTo s alignment ih =>
      obtain ⟨v, hv, hspells⟩ := ih h.1
      obtain ⟨w, hw, hnext⟩ := hspells.padTo h.2
      exact ⟨w, by rw [pack, hv]; exact hw, hnext⟩

end Script

/-- **Scripts of writes refine lists of bits.**  An allowed script leaves as many words as its
list needs, clear past the end of it; they are the words of the bit string that is built, and
whatever is read of either is read of the list. -/
theorem scripts_refine_lists (s : Script) (h : s.Allowed) :
    s.build.toList = s.spelled ∧ s.build.Reads s.spelled ∧
    ∃ v : Packed, s.pack = some v ∧ v = ⟨s.build.words, s.build.size⟩ ∧
      v.size = s.spelled.length ∧ v.words.size = (v.size + 63) / 64 ∧
      (∀ i, v.size ≤ i → v.bit i = false) ∧ v.toList = s.spelled ∧
      v.freeze = some v ∧ v.Reads s.spelled := by
  have hbuild := Script.toList_build h
  obtain ⟨v, hv, hspells⟩ := Script.exists_pack h
  have hreads := s.build.reads
  rw [hbuild] at hreads
  exact ⟨hbuild, hreads, v, hv, hspells.eq_of_toList hbuild, hspells.size_eq, hspells.words_eq,
    fun i hi => hspells.bit_of_le hi, hspells.toList_eq, hspells.freeze, hspells.reads⟩

/-- A field over the end of a word, written in place and then moved by three bits. -/
theorem scripts_refine_lists_of_moved :
    let fields := (((Script.start.appendZeros 70).setBits 57 0xabc 12).setBit 69).padTo 8
    let moved := (Script.start.appendBits 5 3).append (fields.appendBytes [0x12, 0x34])
    moved.Allowed ∧ ∃ v, moved.pack = some v ∧ v = ⟨moved.build.words, moved.build.size⟩ ∧
      v.words.size = 2 ∧ (v.getBits 60 12).map UInt64.toNat = some 0xabc ∧
      moved.build.getBits 60 12 = 0xabc ∧ v.get 72 = some true := by
  intro fields moved
  have hfields : fields.Allowed := by
    refine ⟨⟨⟨trivial, ?_, ?_, ?_⟩, ?_⟩, 3, rfl⟩ <;> decide
  have hmoved : moved.Allowed := ⟨⟨trivial, by decide, by decide⟩, hfields⟩
  have hlength : moved.spelled.length = 91 := by decide +kernel
  have hfield : ofLowFirst ((moved.spelled.drop 60).take 12) = 0xabc := by decide +kernel
  obtain ⟨-, hreads, v, hv, hwords, hsize, hcount, -, -, -, hpacked⟩ :=
    scripts_refine_lists moved hmoved
  refine ⟨hmoved, v, hv, hwords, ?_, ?_, ?_, ?_⟩
  · rw [hcount, hsize, hlength]
  · rw [hpacked.getBits_eq 60 12 (by decide) (by rw [hlength]; decide), hfield]
  · rw [hreads.getBits_eq 60 12 (by decide) (by rw [hlength]; decide), hfield]
  · rw [hpacked.get_eq 72 (by rw [hlength]; decide)]
    rfl

end Postings
