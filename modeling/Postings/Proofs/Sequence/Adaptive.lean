import Postings.Proofs.Bits.InPlace
import Postings.Proofs.Bits.Marks
import Postings.Proofs.Sequence.GapBlocks.Walk
import Postings.Sequence.Adaptive

/-!
# The cheapest of three encodings keeps its lists

When there are as many values as the universe has numbers, value and position are
the same.  In a bitmap the values are the marks.  Blocks are those of gaps.  The
encoding is told by the number of values and by a byte, so the reader takes the
branch that the writer took.  Since blocks are only written when they are smaller,
a region is hardly larger than a bitmap.
-/

namespace Postings
namespace Adaptive

open SequenceCursor BitString

/-! ## All numbers -/

/-- As many increasing values as there are numbers are all numbers. -/
theorem getElem_eq_of_full {values : List Nat} {univ : Nat} (h : Ascending values univ)
    (hfull : values.length = univ) {i : Nat} (hi : i < values.length) : values[i] = i := by
  have hfirst := add_le_getElem h.increasing (Nat.zero_le i) hi
  have hlast := add_le_getElem h.increasing (show i ≤ values.length - 1 by omega) (by omega)
  have := h.below _ (List.getElem_mem (show values.length - 1 < values.length by omega))
  omega

namespace AllOnes

/-- The cursor stands where the plain one does, in a list of all numbers. -/
structure Tracks (c : AllOnes) (p : Plain) : Prop where
  ascending : Ascending p.values p.univ
  full : p.values.length = p.univ
  n_eq : c.n = p.values.length
  position_eq : c.position = p.position
  position_le : p.position ≤ p.values.length

theorem follows_of_tracks {c : AllOnes} {p : Plain} (h : Tracks c p) : Follows c p := by
  refine Follows.of_invariant (r := Tracks) (fun c p h => ?_) (fun c p m h hm => ?_) h
  · have hle := h.position_le
    refine ⟨h.n_eq, h.position_eq, h.position_eq.trans ?_, ?_⟩
    · rcases Nat.lt_or_eq_of_le hle with hlt | heq
      · rw [Plain.value_of_lt hlt, getElem_eq_of_full h.ascending h.full hlt]
      · rw [Plain.value_of_le (Nat.le_of_eq heq.symm), heq, h.full]
    · change Except.ok (c.position - 1) = _
      rw [h.position_eq]
      by_cases hzero : p.position = 0
      · rw [Plain.prevValue, if_pos hzero, hzero]
      · rw [Plain.prevValue_of_pos (by omega) (by omega),
          getElem_eq_of_full h.ascending h.full (by omega)]
  · cases m with
    | moveTo position => exact ⟨_, rfl, h.ascending, h.full, h.n_eq, rfl, hm⟩
    | next =>
        exact ⟨_, rfl, h.ascending, h.full, h.n_eq, congrArg (· + 1) h.position_eq, hm⟩
    | nextGeq bound =>
        refine ⟨_, rfl, h.ascending, h.full, h.n_eq, ?_, List.countP_le_length⟩
        have hn := h.n_eq
        change min bound c.n = _
        refine (Plain.countP_eq (pairwise_le_of_lt h.ascending.increasing) (by omega)
          (fun i hi hlt => ?_) fun hi => ?_).symm
        · rw [getElem_eq_of_full h.ascending h.full hi]
          omega
        · rw [getElem_eq_of_full h.ascending h.full hi]
          omega

end AllOnes

/-! ## A bitmap -/

namespace Bitmap

/-- The bitmap that a cursor walks over is that of a list. -/
structure Over (c : Bitmap) (values : List Nat) (univ : Nat) : Prop where
  n_eq : c.n = values.length
  univ_eq : c.univ = univ
  marked : c.bits.Marked c.start univ values

theorem Over.sorted {c : Bitmap} {values : List Nat} {univ : Nat} (h : Over c values univ) :
    values.Pairwise (· ≤ ·) :=
  pairwise_le_of_lt h.marked.increasing

/-- The cursor stands where the plain one does, and knows the bit of the value. -/
structure Tracks (c : Bitmap) (p : Plain) : Prop where
  covers : Over c p.values p.univ
  position_eq : c.position = p.position
  position_le : p.position ≤ p.values.length
  value_eq : c.value = p.value
  bitPos_eq : c.bitPos = c.start + p.value

variable {c : Bitmap} {p : Plain}

theorem tracks_standAt (h : Over c p.values p.univ) {position : Nat}
    (hlt : position < p.values.length) :
    Tracks (c.standAt position (c.start + p.values[position])) { p with position } := by
  have hvalue := Plain.value_of_lt (p := { p with position }) hlt
  refine ⟨⟨h.n_eq, h.univ_eq, h.marked⟩, rfl, Nat.le_of_lt hlt, ?_, ?_⟩
  · rw [hvalue]
    exact Nat.add_sub_cancel_left _ _
  · rw [hvalue]
    rfl

theorem tracks_atEnd (h : Over c p.values p.univ) :
    Tracks c.atEnd { p with position := p.values.length } := by
  have hvalue := Plain.value_of_le (p := { p with position := p.values.length }) (Nat.le_refl _)
  refine ⟨⟨h.n_eq, h.univ_eq, h.marked⟩, h.n_eq, Nat.le_refl _, ?_, ?_⟩
  · rw [hvalue]
    exact h.univ_eq
  · rw [hvalue]
    exact congrArg (c.start + ·) h.univ_eq

theorem found_selectOne (h : Over c p.values p.univ) {x k i : Nat} (hx : x ≤ p.univ)
    (hcount : p.values.countP (· < x) + k = i) (hi : i < p.values.length) :
    found (c.bits.selectOne (c.start + x) k) = .ok (c.start + p.values[i]) := by
  subst hcount
  rw [h.marked.selectOne hx hi]
  rfl

/-- Behind the bit of a value, one value more is passed. -/
theorem bitPos_of_lt (h : Tracks c p) (hlt : p.position < p.values.length) :
    c.bitPos + 1 = c.start + (p.values[p.position] + 1) ∧ p.values[p.position] + 1 ≤ p.univ ∧
      p.values.countP (· < p.values[p.position] + 1) = p.position + 1 := by
  refine ⟨?_, h.covers.marked.below _ (List.getElem_mem hlt), ?_⟩
  · rw [h.bitPos_eq, Plain.value_of_lt hlt, Nat.add_assoc]
  · rw [countP_lt_succ h.covers.marked.increasing, countP_lt_getElem h.covers.marked.increasing hlt,
      if_pos (List.getElem_mem hlt)]

theorem tracks_moveTo (h : Tracks c p) {position : Nat} (hp : position ≤ p.values.length) :
    ∃ c', c.moveTo position = .ok c' ∧ Tracks c' { p with position } := by
  have hn := h.covers.n_eq
  rw [moveTo]
  by_cases hlast : position = c.n
  · rw [if_pos hlast, hlast, hn]
    exact ⟨_, rfl, tracks_atEnd h.covers⟩
  have hlt : position < p.values.length := by omega
  rw [if_neg hlast]
  split
  · rename_i hforward
    rw [h.position_eq, hn] at hforward
    obtain ⟨hbehind, hle, hcount⟩ := bitPos_of_lt h hforward.2
    rw [hbehind, found_selectOne h.covers hle (by rw [hcount, h.position_eq]; omega) hlt]
    exact ⟨_, rfl, tracks_standAt h.covers hlt⟩
  · rw [← Nat.add_zero c.start, found_selectOne h.covers (Nat.zero_le _) (by simp) hlt]
    exact ⟨_, rfl, tracks_standAt h.covers hlt⟩

theorem tracks_next (h : Tracks c p) (hp : p.position < p.values.length) :
    ∃ c', c.next = .ok c' ∧ Tracks c' { p with position := p.position + 1 } := by
  have hn := h.covers.n_eq
  rw [next, h.position_eq]
  by_cases hlast : p.position + 1 = c.n
  · rw [if_pos hlast, hlast, hn]
    exact ⟨_, rfl, tracks_atEnd h.covers⟩
  · obtain ⟨hbehind, hle, hcount⟩ := bitPos_of_lt h hp
    have hlt : p.position + 1 < p.values.length := by omega
    rw [if_neg hlast, hbehind, nextOne, found_selectOne h.covers (k := 0) hle hcount hlt]
    exact ⟨_, rfl, tracks_standAt h.covers hlt⟩

/-- No bit is found when no value reaches the bound. -/
theorem filter_nextOne_eq_none (h : Over c p.values p.univ) {bound : Nat}
    (hall : p.values.countP (· < bound) = p.values.length) :
    (c.bits.nextOne (c.start + bound)).filter (· < c.start + p.univ) = none := by
  rw [Option.filter_eq_none_iff]
  intro hit hnext hin
  obtain ⟨hge, hbit, -⟩ := nextOne_eq_some.mp hnext
  have hlt := of_decide_eq_true hin
  obtain ⟨x, rfl⟩ := Nat.exists_eq_add_of_le (show c.start ≤ hit by omega)
  have hmem := (h.marked.bit_iff x (by omega)).mp hbit
  have := of_decide_eq_true (List.countP_eq_length.mp hall x hmem)
  omega

theorem tracks_nextGeq (h : Tracks c p) (bound : Nat) :
    Tracks (c.nextGeq bound) (p.nextGeq bound) := by
  have hn := h.covers.n_eq
  have hincreasing := h.covers.marked.increasing
  rw [nextGeq, h.covers.univ_eq]
  by_cases huniv : p.univ ≤ bound
  · rw [if_pos huniv, Plain.nextGeq, Plain.countP_of_univ_le h.covers.marked.below huniv]
    exact tracks_atEnd h.covers
  rw [if_neg huniv]
  rcases Nat.lt_or_eq_of_le (List.countP_le_length (p := (· < bound)) (l := p.values)) with
    hlt | hall
  · have hbelow := h.covers.marked.below _ (List.getElem_mem hlt)
    rw [h.covers.marked.nextOne (by omega) hlt, Option.filter_some,
      if_pos (decide_eq_true (Nat.add_lt_add_left hbelow c.start))]
    have hposition : (if c.position < c.n ∧
          c.bitPos ≤ c.start + p.values[p.values.countP (· < bound)]
        then c.position +
          c.bits.countOnes c.bitPos (c.start + p.values[p.values.countP (· < bound)])
        else c.bits.countOnes c.start (c.start + p.values[p.values.countP (· < bound)])) =
        p.values.countP (· < bound) := by
      split
      · rename_i hahead
        rw [h.position_eq, hn, h.bitPos_eq] at hahead
        have hcount := h.covers.marked.countOnes (x := p.value) (by omega) (Nat.le_of_lt hbelow)
        rw [Plain.value_of_lt hahead.1, countP_lt_getElem hincreasing hahead.1,
          countP_lt_getElem hincreasing hlt] at hcount
        rw [h.position_eq, h.bitPos_eq, Plain.value_of_lt hahead.1]
        omega
      · have hcount := h.covers.marked.countOnes (x := 0) (Nat.zero_le _) (Nat.le_of_lt hbelow)
        rw [countP_lt_getElem hincreasing hlt] at hcount
        simpa using hcount
    simp only [hposition]
    exact tracks_standAt h.covers hlt
  · rw [filter_nextOne_eq_none h.covers hall, Plain.nextGeq, hall]
    exact tracks_atEnd h.covers

theorem prevValue_eq (h : Tracks c p) : c.prevValue = .ok p.prevValue := by
  have hle := h.position_le
  rw [prevValue, h.position_eq]
  by_cases hzero : p.position = 0
  · rw [if_pos hzero, Plain.prevValue, if_pos hzero]
    rfl
  have hlt : p.position - 1 < p.values.length := by omega
  have hcount : p.value ≤ p.univ ∧ p.values.countP (· < p.value) = p.position - 1 + 1 := by
    rcases Nat.lt_or_eq_of_le hle with hin | hend
    · rw [Plain.value_of_lt hin, countP_lt_getElem h.covers.marked.increasing hin]
      exact ⟨Nat.le_of_lt (h.covers.marked.below _ (List.getElem_mem hin)), by omega⟩
    · rw [Plain.value_of_le (Nat.le_of_eq hend.symm),
        Plain.countP_of_univ_le h.covers.marked.below (Nat.le_refl _)]
      exact ⟨Nat.le_refl _, by omega⟩
  rw [if_neg hzero, h.bitPos_eq, h.covers.marked.prevOne hcount.1 hcount.2 hlt,
    Plain.prevValue_of_pos (by omega) hlt]
  change Except.ok (c.start + p.values[p.position - 1] - c.start) = _
  rw [Nat.add_sub_cancel_left]

theorem follows_of_tracks (h : Tracks c p) : Follows c p := by
  refine Follows.of_invariant (r := Tracks) (fun c p h => ?_) (fun c p m h hm => ?_) h
  · exact ⟨h.covers.n_eq, h.position_eq, h.value_eq, prevValue_eq h⟩
  · cases m with
    | moveTo position => exact tracks_moveTo h hm
    | next => exact tracks_next h hm
    | nextGeq bound => exact ⟨_, rfl, tracks_nextGeq h bound⟩

theorem openAt_eq {v : BitString} {start univ : Nat} {values : List Nat} (hne : values ≠ [])
    (h : v.Marked start univ values) :
    ∃ c, openAt v start univ values.length = .ok c ∧ Follows c ⟨values, univ, 0⟩ := by
  have hpos := List.length_pos_iff.mpr hne
  have hover : Over ⟨v, start, univ, values.length, 0, 0, 0⟩ values univ := ⟨rfl, rfl, h⟩
  have hzero : values.countP (· < 0) = 0 := by simp
  have hfirst := h.nextOne (x := 0) (Nat.zero_le _) (by rw [hzero]; exact hpos)
  simp only [hzero, Nat.add_zero] at hfirst
  have hbelow := Nat.add_lt_add_left (h.below _ (List.getElem_mem hpos)) start
  refine ⟨_, ?_, follows_of_tracks (tracks_standAt (p := ⟨values, univ, 0⟩) hover hpos)⟩
  have hrange : v.checkRange "bitmap" start univ = .ok () := by rw [checkRange, if_pos h.fits]
  simp only [openAt, hrange, hfirst, Option.filter_some, decide_eq_true hbelow, if_true]
  rfl

end Bitmap

/-- Setting a bit for each value marks the values. -/
theorem foldl_setBit (start : Nat) {len : Nat} {values : List Nat} :
    ∀ {v : BitString}, start + len ≤ v.size → (∀ x ∈ values, x < len) →
      (values.foldl (fun bits x => bits.setBit (start + x)) v).ChangedWithin v start (start + len) ∧
        ∀ x, x < len → (values.foldl (fun bits x => bits.setBit (start + x)) v).bit (start + x) =
          (v.bit (start + x) || decide (x ∈ values)) := by
  induction values with
  | nil => exact fun {v} _ _ => ⟨.refl _ _ _, fun x _ => by simp⟩
  | cons y values ih =>
      intro v hsize hbelow
      obtain ⟨hy, hbelow⟩ := List.forall_mem_cons.mp hbelow
      obtain ⟨hchanged, hbits⟩ := ih (v := v.setBit (start + y)) hsize hbelow
      refine ⟨hchanged.trans ((setBit_changedWithin _ _).mono (by omega) (by omega)),
        fun x hx => ?_⟩
      have heq : decide (start + x = start + y) = decide (x = y) := decide_eq_decide.mpr (by omega)
      rw [List.foldl_cons, hbits x hx, bit_setBit _ (by omega), heq, Bool.or_assoc]
      simp only [List.mem_cons, Bool.decide_or]

/-- The bits that the values of a bitmap are set among. -/
theorem appendBitmap_marked (w : BitString) {values : List Nat} {univ : Nat}
    (hincreasing : values.Pairwise (· < ·)) (hbelow : ∀ x ∈ values, x < univ) :
    (appendBitmap w values univ).Marked (w.size + 8) univ values := by
  have hsize : ((w.appendBits bitmapTag 8).appendZeros univ).size = w.size + 8 + univ := rfl
  obtain ⟨hchanged, hbits⟩ := foldl_setBit (w.size + 8)
    (v := (w.appendBits bitmapTag 8).appendZeros univ) (Nat.le_of_eq hsize.symm) hbelow
  have hpad := padTo_extends (values.foldl (fun bits x => bits.setBit (w.size + 8 + x))
    ((w.appendBits bitmapTag 8).appendZeros univ)) 8
  refine ⟨?_, hincreasing, hbelow, fun x hx => ?_⟩
  · exact Nat.le_trans (Nat.le_of_eq (hsize.symm.trans hchanged.size_eq.symm)) hpad.size_le
  · have hzero : ((w.appendBits bitmapTag 8).appendZeros univ).bit (w.size + 8 + x) = false := by
      rw [bit_appendZeros]
      exact bit_eq_false_of_size_le _ (by rw [size_appendBits]; omega)
    have hbit := hpad.bit_eq (w.size + 8 + x) (by rw [hchanged.size_eq, hsize]; omega)
    rw [hbits x hx, hzero, Bool.false_or] at hbit
    change (appendBitmap w values univ).bit _ = _ at hbit
    rw [hbit, decide_eq_true_iff]

theorem appendBitmap_extends (w : BitString) {values : List Nat} {univ : Nat}
    (hbelow : ∀ x ∈ values, x < univ) :
    (appendBitmap w values univ).Extends (w.appendBits bitmapTag 8) := by
  obtain ⟨hchanged, -⟩ := foldl_setBit (w.size + 8)
    (v := (w.appendBits bitmapTag 8).appendZeros univ) (Nat.le_refl _) hbelow
  exact (padTo_extends _ _).trans
    (hchanged.still_extends (appendZeros_extends _ _) (Nat.le_refl _))

theorem size_appendBitmap (w : BitString) {values : List Nat} {univ : Nat}
    (hbelow : ∀ x ∈ values, x < univ) :
    (appendBitmap w values univ).size = alignUp (w.size + 8 + univ) 8 := by
  obtain ⟨hchanged, -⟩ := foldl_setBit (w.size + 8)
    (v := (w.appendBits bitmapTag 8).appendZeros univ) (Nat.le_refl _) hbelow
  refine (size_padTo_eight _).trans (congrArg (alignUp · 8) ?_)
  exact hchanged.size_eq

/-! ## Any encoding -/

namespace Cursor

theorem follows_allOnes {c : AllOnes} {p : Plain} (h : Follows c p) : Follows (allOnes c) p :=
  h.map (fun _ m => by cases m <;> rfl) fun _ _ h =>
    ⟨h.size_eq, h.position_eq, h.value_eq, h.prevValue_eq⟩

theorem follows_bitmap {c : Bitmap} {p : Plain} (h : Follows c p) : Follows (bitmap c) p :=
  h.map (fun _ m => by cases m <;> rfl) fun _ _ h =>
    ⟨h.size_eq, h.position_eq, h.value_eq, h.prevValue_eq⟩

theorem follows_blocks {c : GapBlocks.Cursor} {p : Plain} (h : Follows c p) :
    Follows (blocks c) p :=
  h.map (fun _ m => by cases m <;> rfl) fun _ _ h =>
    ⟨h.size_eq, h.position_eq, h.value_eq, h.prevValue_eq⟩

end Cursor

/-- What a writer leaves behind, by the encoding that it chose. -/
inductive Written (codec : Codec) (before : BitString) (values : List Nat) (univ : Nat) :
    BitString → Prop where
  | allOnes (full : values.length = univ) : Written codec before values univ (before.padTo 8)
  | bitmap (sparse : values.length ≠ univ) :
      Written codec before values univ (appendBitmap (before.padTo 8) values univ)
  | blocks (sparse : values.length ≠ univ) (payload : List UInt8)
      (encoded : GapBlocks.encodePayload codec values = .ok payload)
      (smaller : payload.length < (univ + 7) / 8) :
      Written codec before values univ
        (((before.padTo 8).appendBits blocksTag 8).appendBytes payload)

variable {codec : Codec} {before bits : BitString} {values : List Nat} {univ : Nat}

/-- What is written of a list, by its payload. -/
theorem runFrom_write (h : Ascending values univ) {payload : List UInt8}
    (hpayload : GapBlocks.encodePayload codec values = .ok payload) (params : Params)
    (config : BuildConfig) (before : BitString) :
    (write codec values univ params config).runFrom before =
      (.ok (),
        if values.length = univ then before.padTo 8
        else if (univ + 7) / 8 ≤ payload.length then appendBitmap (before.padTo 8) values univ
        else ((before.padTo 8).appendBits blocksTag 8).appendBytes payload) := by
  rw [write, Attempt.runFrom_bind, Attempt.runFrom_lift, checkMonotone_eq_ok.mpr h]
  simp only
  rw [Attempt.runFrom_bind, Attempt.runFrom_modify]
  by_cases hfull : values.length = univ
  · rw [if_pos hfull]
    simp only [if_neg (not_not_intro hfull)]
    rfl
  · rw [if_neg hfull]
    simp only [if_pos hfull]
    rw [Attempt.runFrom_bind, Attempt.runFrom_lift, hpayload]
    by_cases hsize : (univ + 7) / 8 ≤ payload.length
    · simp only [if_pos hsize]
      rfl
    · simp only [if_neg hsize]
      rfl

theorem exists_write (codec : Codec) (h : Ascending values univ) (params : Params)
    (config : BuildConfig) (before : BitString) :
    ∃ bits, (write codec values univ params config).runFrom before = (.ok (), bits) ∧
      Written codec before values univ bits := by
  obtain ⟨payload, hpayload⟩ := GapBlocks.exists_encodePayload codec h
  refine ⟨_, runFrom_write h hpayload params config before, ?_⟩
  split
  · rename_i hfull
    exact .allOnes hfull
  · rename_i hsparse
    split
    · exact .bitmap hsparse
    · rename_i hsmaller
      exact .blocks hsparse payload hpayload (Nat.not_le.mp hsmaller)

theorem Written.still_extends (hw : Written codec before values univ bits)
    (h : Ascending values univ) : bits.Extends (before.padTo 8) := by
  cases hw with
  | allOnes => exact .refl _
  | bitmap => exact (appendBitmap_extends _ h.below).trans (appendBits_extends _ _ _)
  | blocks => exact (appendBytes_extends _ _).trans (appendBits_extends _ _ _)

/-- A region is hardly larger than a bitmap. -/
theorem Written.size_le (hw : Written codec before values univ bits) (h : Ascending values univ) :
    bits.size ≤ before.size + univ + 22 := by
  have hpad : (before.padTo 8).size ≤ before.size + 7 := by
    rw [size_padTo_eight, alignUp]
    omega
  cases hw with
  | allOnes => omega
  | bitmap =>
      have := alignUp_eight_le ((before.padTo 8).size + 8 + univ)
      rw [size_appendBitmap _ h.below]
      omega
  | blocks _ payload _ hsmaller =>
      rw [size_appendBytes, size_appendBits]
      omega

/-- The byte that names the encoding is read where it is carried. -/
theorem read_tag {v w : BitString} {pos tag : Nat} (hcarries : v.Carries pos bits w.size)
    (hgrown : bits.Extends (w.appendBits tag 8)) (htag : tag < 2 ^ 8) :
    v.checkRange "indexed sequence tag" pos 8 = .ok () ∧ v.getBits pos 8 = tag := by
  have hfield := hcarries.mono hgrown
  refine ⟨?_, hfield.getBits_appendBits (by omega) htag⟩
  have hfits := hfield.fits
  rw [size_appendBits] at hfits
  rw [checkRange, if_pos (by omega)]

/-- The reader takes the branch that the writer took. -/
theorem Written.opens (hw : Written codec before values univ bits) (h : Ascending values univ)
    (params : Params) :
    (format codec).OpensWhereCarried bits before.size univ values params := by
  intro v pos hpos hcarries
  have hstart := hcarries.align hpos (by
    rw [← size_padTo_eight]
    exact (hw.still_extends h).size_le)
  rw [← size_padTo_eight] at hstart
  change ∃ c, openAt codec v pos univ values.length params = .ok c ∧ Follows c _
  rw [openAt]
  cases hw with
  | allOnes hfull =>
      rw [if_pos hfull]
      refine ⟨_, rfl, Cursor.follows_allOnes (AllOnes.follows_of_tracks ?_)⟩
      exact ⟨h, hfull, rfl, rfl, Nat.zero_le _⟩
  | bitmap hsparse =>
      obtain ⟨hrange, hread⟩ := read_tag hstart (appendBitmap_extends _ h.below) (by decide)
      have hmarked := (appendBitmap_marked (before.padTo 8) h.increasing h.below).carried hstart rfl
      obtain ⟨c, hc, hfollows⟩ := Bitmap.openAt_eq h.ne_nil hmarked
      refine ⟨_, ?_, Cursor.follows_bitmap hfollows⟩
      simp only [if_neg hsparse, hrange, hread, if_pos, hc]
      rfl
  | blocks hsparse payload hpayload hsmaller =>
      obtain ⟨hrange, hread⟩ := read_tag hstart (appendBytes_extends _ _) (by decide)
      have hbytes := hstart.advance 8 (by rw [size_appendBytes, size_appendBits]; omega)
      have haligned : alignUp (alignUp pos 8 + 8) 8 = alignUp pos 8 + 8 := by
        have := alignUp_mod_eight pos
        rw [alignUp]
        omega
      rw [← haligned] at hbytes
      obtain ⟨c, hc, hfollows⟩ := GapBlocks.openAt_eq h hpayload hbytes params
      refine ⟨_, ?_, Cursor.follows_blocks hfollows⟩
      simp only [if_neg hsparse, hrange, hread, if_neg (show ¬ blocksTag = bitmapTag by decide),
        if_pos, hc]
      rfl

/-- The cheapest of three encodings keeps every ascending list. -/
theorem faithful (codec : Codec) (params : Params) (config : BuildConfig) :
    (format codec).Faithful params config := by
  refine ⟨fun h before => ?_, fun {values univ} h {before bits} hw => ?_,
    fun {values univ} h {before bits} hw => ?_⟩
  · obtain ⟨bits, hw, -⟩ := exists_write codec h params config before
    exact ⟨bits, hw⟩
  · obtain ⟨bits', hw', hwritten⟩ := exists_write codec h params config before
    obtain rfl := congrArg Prod.snd (hw'.symm.trans hw)
    exact (hwritten.still_extends h).trans (padTo_extends _ _)
  · obtain ⟨bits', hw', hwritten⟩ := exists_write codec h params config before
    obtain rfl := congrArg Prod.snd (hw'.symm.trans hw)
    exact hwritten.opens h params

/-- A partition is hardly larger than a bitmap of its universe. -/
theorem growsWithin (codec : Codec) (params : Params) (config : BuildConfig) :
    (format codec).GrowsWithin params config 23 := by
  refine ⟨fun {values univ} h {before bits} hw => ?_⟩
  obtain ⟨bits', hw', hwritten⟩ := exists_write codec h params config before
  obtain rfl := congrArg Prod.snd (hw'.symm.trans hw)
  have hsize := hwritten.size_le h
  have hpos := h.length_pos
  have hlen := h.length_le
  change bits'.size ≤ _
  omega

end Adaptive
end Postings
