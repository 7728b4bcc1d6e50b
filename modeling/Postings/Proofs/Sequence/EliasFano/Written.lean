import Postings.Proofs.Bits.InPlace
import Postings.Proofs.Bits.Marks
import Postings.Sequence.EliasFano

/-!
# What an Elias-Fano region holds

The set positions of the high bits are the *marks*: value `i` marks its high part
plus `i`.  Bucket `b` begins at its *boundary*, which is `b` plus the number of
values with a smaller high part; as many marks lie before it.  `Stored` says what a
reader may rely on: the low bits, the marks and the two tables of pointers.  The
writer establishes it, and it moves with the bits.
-/

namespace Postings
namespace EliasFano

open BitString

/-! ## Marks and boundaries -/

namespace Layout

variable (l : Layout)

/-- The set positions of the high bits, of the values from the `i`-th on. -/
def marksFrom (i : Nat) : List Nat → List Nat
  | [] => []
  | v :: values => (l.high v + i) :: marksFrom (i + 1) values

/-- The set positions of the high bits. -/
def marks (values : List Nat) : List Nat := l.marksFrom 0 values

/-- How many values have a high part below `bucket`. -/
def countBelow (values : List Nat) (bucket : Nat) : Nat :=
  values.countP fun v => decide (l.high v < bucket)

/-- Where a bucket begins. -/
def boundary (values : List Nat) (bucket : Nat) : Nat :=
  bucket + l.countBelow values bucket

variable {l}

theorem high_mono {v w : Nat} (h : v ≤ w) : l.high v ≤ l.high w := by
  rw [high, high, Nat.shiftRight_eq_div_pow, Nat.shiftRight_eq_div_pow]
  exact Nat.div_le_div_right h

@[simp] theorem length_marksFrom (i : Nat) (values : List Nat) :
    (l.marksFrom i values).length = values.length := by
  induction values generalizing i with
  | nil => rfl
  | cons v values ih => rw [marksFrom, List.length_cons, ih, List.length_cons]

@[simp] theorem length_marks (values : List Nat) : (l.marks values).length = values.length :=
  length_marksFrom 0 values

theorem getElem_marksFrom {i j : Nat} {values : List Nat} (hj : j < (l.marksFrom i values).length)
    (hj' : j < values.length) : (l.marksFrom i values)[j] = l.high values[j] + (i + j) := by
  induction values generalizing i j with
  | nil => cases hj'
  | cons v values ih =>
      cases j with
      | zero => rfl
      | succ j =>
          have := ih (i := i + 1) (j := j) (by simpa [marksFrom] using hj) (by simpa using hj')
          simp only [marksFrom, List.getElem_cons_succ, this]
          omega

theorem getElem_marks {i : Nat} {values : List Nat} (hi : i < (l.marks values).length)
    (hi' : i < values.length) : (l.marks values)[i] = l.high values[i] + i := by
  have := getElem_marksFrom (l := l) (i := 0) hi hi'
  rwa [Nat.zero_add] at this

theorem marks_increasing {values : List Nat} (h : values.Pairwise (· ≤ ·)) :
    (l.marks values).Pairwise (· < ·) := by
  rw [List.pairwise_iff_getElem]
  intro i j hi hj hij
  have hi' : i < values.length := by simpa using hi
  have hj' : j < values.length := by simpa using hj
  rw [getElem_marks hi hi', getElem_marks hj hj']
  have := high_mono (l := l) (getElem_le_getElem h (Nat.le_of_lt hij) hj')
  omega

/-- The values with a high part below a bucket come first. -/
theorem high_lt_iff {values : List Nat} (h : values.Pairwise (· ≤ ·)) (bucket : Nat) {i : Nat}
    (hi : i < values.length) : l.high values[i] < bucket ↔ i < l.countBelow values bucket := by
  have hsorted : (values.map l.high).Pairwise (· ≤ ·) :=
    h.map l.high fun _ _ hle => high_mono hle
  have := Plain.getElem_lt_iff hsorted bucket (i := i) (by simpa using hi)
  rwa [List.getElem_map, List.countP_map] at this

theorem countBelow_le (values : List Nat) (bucket : Nat) :
    l.countBelow values bucket ≤ values.length :=
  List.countP_le_length

theorem countBelow_mono (values : List Nat) {b c : Nat} (h : b ≤ c) :
    l.countBelow values b ≤ l.countBelow values c := by
  refine List.countP_mono_left fun v _ hv => ?_
  have := of_decide_eq_true hv
  exact decide_eq_true (by omega)

/-- As many marks lie before a boundary as values have a smaller high part. -/
theorem countP_marks_boundary {values : List Nat} (h : values.Pairwise (· ≤ ·)) (bucket : Nat) :
    (l.marks values).countP (· < l.boundary values bucket) = l.countBelow values bucket := by
  refine Plain.countP_eq (pairwise_le_of_lt (marks_increasing h))
    (by rw [length_marks]; exact countBelow_le values bucket) (fun i hi hlt => ?_) fun hi => ?_
  · have hi' : i < values.length := by simpa using hi
    have := (high_lt_iff (l := l) h bucket hi').mpr hlt
    rw [getElem_marks hi hi', boundary]
    omega
  · have hi' : l.countBelow values bucket < values.length := by simpa using hi
    have := (not_congr (high_lt_iff (l := l) h bucket hi')).mpr (Nat.lt_irrefl _)
    rw [getElem_marks hi hi', boundary]
    omega

/-- The bit in front of a bucket's first value is unset. -/
theorem boundary_pred_not_mem {values : List Nat} (h : values.Pairwise (· ≤ ·)) {bucket : Nat}
    (hpos : 0 < bucket) : l.boundary values bucket - 1 ∉ l.marks values := by
  intro hmem
  obtain ⟨i, hi, heq⟩ := List.mem_iff_getElem.mp hmem
  have hi' : i < values.length := by simpa using hi
  have hiff := high_lt_iff (l := l) h bucket hi'
  rw [getElem_marks hi hi', boundary] at heq
  omega

end Layout

/-! ## What is relied on -/

/-- A list that fits a layout: it is in order below the universe, and neither a value nor
the position of a high bit needs more than 64 bits. -/
structure Layout.Fits (l : Layout) (values : List Nat) : Prop where
  n_eq : l.n = values.length
  ne_nil : values ≠ []
  sorted : values.Pairwise (· ≤ ·)
  below : ∀ v ∈ values, v < l.univ
  univ_le : l.univ ≤ 2 ^ 64
  highLength_le : l.highLength ≤ 2 ^ 64

theorem Layout.buckets_le (l : Layout) : l.buckets ≤ l.univ := by
  rw [buckets, Nat.shiftRight_eq_div_pow]
  exact Nat.div_le_self _ _

/-- Low bits are as many as leave at most two buckets for each value. -/
theorem Layout.buckets_le_two_mul {l : Layout} (hn : 0 < l.n) : l.buckets ≤ 2 * l.n := by
  rw [buckets, lowWidth, Nat.shiftRight_eq_div_pow]
  split
  · have hfull : l.univ / l.n < 2 ^ ((l.univ / l.n).log2 + 1) := Nat.lt_log2_self
    refine Nat.div_le_of_le_mul (Nat.le_of_lt ?_)
    calc l.univ < 2 ^ ((l.univ / l.n).log2 + 1) * l.n := (Nat.div_lt_iff_lt_mul hn).mp hfull
      _ = 2 ^ (l.univ / l.n).log2 * (2 * l.n) := by rw [Nat.pow_succ, Nat.mul_assoc]
  · rw [Nat.pow_zero, Nat.div_one]
    omega

namespace Layout.Fits

variable {l : Layout} {values : List Nat}

/-- Lists below a universe of at most `2 ^ 32` fit wherever they begin. -/
theorem of_nonDecreasing (hn : l.n = values.length) (h : NonDecreasing values l.univ) :
    l.Fits values where
  n_eq := hn
  ne_nil := h.ne_nil
  sorted := h.sorted
  below := h.below
  univ_le := by
    have := h.univ_le
    omega
  highLength_le := by
    have := l.buckets_le
    have := h.univ_le
    have := h.length_le
    rw [highLength, hn]
    omega

/-- So does any list in order whose region ends at a position of 64 bits. -/
theorem of_stop (hn : l.n = values.length) (hne : values ≠ [])
    (hsorted : values.Pairwise (· ≤ ·)) (hbelow : ∀ v ∈ values, v < l.univ)
    (huniv : l.univ < 2 ^ 64) (hstop : l.stop < 2 ^ 64) : l.Fits values where
  n_eq := hn
  ne_nil := hne
  sorted := hsorted
  below := hbelow
  univ_le := Nat.le_of_lt huniv
  highLength_le := by
    rw [stop, lowOffset] at hstop
    omega

/-- So does any list in order that is short enough, wherever its region begins. -/
theorem of_length (hn : l.n = values.length) (hne : values ≠ [])
    (hsorted : values.Pairwise (· ≤ ·)) (hbelow : ∀ v ∈ values, v < l.univ)
    (huniv : l.univ < 2 ^ 64) (hlength : values.length < 2 ^ 62) : l.Fits values where
  n_eq := hn
  ne_nil := hne
  sorted := hsorted
  below := hbelow
  univ_le := Nat.le_of_lt huniv
  highLength_le := by
    have := List.length_pos_iff.mpr hne
    have := l.buckets_le_two_mul (by omega)
    rw [highLength]
    omega

theorem lowWidth_le (h : l.Fits values) : l.lowWidth ≤ 64 := by
  have huniv := h.univ_le
  rw [lowWidth]
  split
  · have hle : l.univ / l.n ≤ l.univ := Nat.div_le_self _ _
    rcases Nat.eq_zero_or_pos (l.univ / l.n) with hzero | hpos
    · rw [hzero]
      exact Nat.zero_le _
    · exact Nat.le_of_lt_succ ((Nat.log2_lt (by omega)).mpr (by omega))
  · exact Nat.zero_le _

theorem pointerWidth_le (h : l.Fits values) : l.pointerWidth ≤ 64 :=
  ceilLog2_le h.highLength_le

/-- A region takes few bits for each value and each element of the universe. -/
theorem stop_le (h : l.Fits values) : l.stop ≤ l.start + 130 * (l.univ + values.length) := by
  have hn := h.n_eq
  have hlow := Nat.mul_le_mul_left l.n h.lowWidth_le
  have hbuckets := l.buckets_le
  have hbucketPointers : l.bucketPointers ≤ l.buckets := by
    rw [bucketPointers, Nat.shiftRight_eq_div_pow]
    exact Nat.div_le_self _ _
  have helementPointers : l.elementPointers ≤ l.n := by
    rw [elementPointers, Nat.shiftRight_eq_div_pow]
    exact (Nat.div_le_self _ _).trans (Nat.sub_le _ _)
  have hfirst := Nat.mul_le_mul hbucketPointers h.pointerWidth_le
  have hsecond := Nat.mul_le_mul helementPointers h.pointerWidth_le
  have hpos := List.length_pos_iff.mpr h.ne_nil
  rw [stop, lowOffset, highOffset, elementPointersOffset, highLength]
  omega

theorem high_le (h : l.Fits values) {v : Nat} (hv : v ∈ values) : l.high v ≤ l.buckets :=
  high_mono (Nat.le_of_lt (h.below v hv))

theorem length_pos (h : l.Fits values) : 0 < values.length :=
  List.length_pos_iff.mpr h.ne_nil

theorem marks_below (h : l.Fits values) : ∀ m ∈ l.marks values, m < l.highLength := by
  intro m hm
  obtain ⟨i, hi, rfl⟩ := List.mem_iff_getElem.mp hm
  have hi' : i < values.length := by simpa using hi
  have := h.high_le (List.getElem_mem hi')
  have := h.n_eq
  rw [getElem_marks hi hi', highLength]
  omega

theorem boundary_lt (h : l.Fits values) {bucket : Nat} (hb : bucket ≤ l.buckets) :
    l.boundary values bucket < l.highLength := by
  have := countBelow_le (l := l) values bucket
  have := h.n_eq
  rw [boundary, highLength]
  omega

/-- What is below the number of high bits fits a pointer. -/
theorem lt_of_pointer {x : Nat} (hx : x < l.highLength) : x < 2 ^ l.pointerWidth :=
  Nat.lt_of_lt_of_le hx (le_two_pow_ceilLog2 _)

theorem element_fits (h : l.Fits values) {k : Nat}
    (hk : k * 2 ^ l.params.elementLog < values.length) : k ≤ l.elementPointers := by
  have := h.n_eq
  rw [elementPointers, Nat.shiftRight_eq_div_pow]
  exact (Nat.le_div_iff_mul_le (Nat.two_pow_pos _)).mpr (by omega)

end Layout.Fits

/-- The sampled buckets are buckets. -/
theorem Layout.sampled_le {l : Layout} {k : Nat} (hk : k ≤ l.bucketPointers) :
    k * 2 ^ l.params.bucketLog ≤ l.buckets := by
  rw [bucketPointers, Nat.shiftRight_eq_div_pow] at hk
  exact (Nat.le_div_iff_mul_le (Nat.two_pow_pos _)).mp hk

/-- The bits of a region are those of its values. -/
structure Stored (v : BitString) (l : Layout) (values : List Nat) : Prop where
  stop_le : l.stop ≤ v.size
  low_eq : ∀ i (hi : i < values.length),
    v.getBits (l.lowOffset + i * l.lowWidth) l.lowWidth = values[i] % 2 ^ l.lowWidth
  marked : v.Marked l.highOffset l.highLength (l.marks values)
  element_eq : ∀ k, 0 < k → ∀ hk : k * 2 ^ l.params.elementLog < values.length,
    v.getBits (l.elementPointerAt k) l.pointerWidth =
      l.high values[k * 2 ^ l.params.elementLog] + k * 2 ^ l.params.elementLog
  bucket_eq : ∀ k, 0 < k → k ≤ l.bucketPointers →
    v.getBits (l.bucketPointerAt k) l.pointerWidth =
      l.boundary values (k * 2 ^ l.params.bucketLog)

namespace Layout

/-- The same layout at another place. -/
def moved (l : Layout) (pos : Nat) : Layout := { l with start := pos }

variable (l : Layout) (pos : Nat)

@[simp] theorem moved_univ : (l.moved pos).univ = l.univ := rfl

@[simp] theorem moved_n : (l.moved pos).n = l.n := rfl

@[simp] theorem moved_params : (l.moved pos).params = l.params := rfl

@[simp] theorem moved_lowWidth : (l.moved pos).lowWidth = l.lowWidth := rfl

@[simp] theorem moved_highLength : (l.moved pos).highLength = l.highLength := rfl

@[simp] theorem moved_pointerWidth : (l.moved pos).pointerWidth = l.pointerWidth := rfl

@[simp] theorem moved_bucketPointers : (l.moved pos).bucketPointers = l.bucketPointers := rfl

@[simp] theorem moved_high (v : Nat) : (l.moved pos).high v = l.high v := rfl

@[simp] theorem moved_boundary (values : List Nat) (bucket : Nat) :
    (l.moved pos).boundary values bucket = l.boundary values bucket := rfl

@[simp] theorem moved_marks (values : List Nat) : (l.moved pos).marks values = l.marks values := by
  have hfrom : ∀ i, (l.moved pos).marksFrom i values = l.marksFrom i values := by
    induction values with
    | nil => exact fun _ => rfl
    | cons v values ih => exact fun i => by rw [marksFrom, marksFrom, ih, moved_high]
  exact hfrom 0

theorem start_le_highOffset : l.start ≤ l.highOffset := by
  rw [highOffset, elementPointersOffset]
  omega

theorem highOffset_le_lowOffset : l.highOffset ≤ l.lowOffset := by
  rw [lowOffset]
  omega

theorem moved_elementPointersOffset : (l.moved pos).elementPointersOffset =
    pos + (l.elementPointersOffset - l.start) := by
  change pos + l.bucketPointers * l.pointerWidth = _
  rw [elementPointersOffset]
  omega

theorem moved_highOffset : (l.moved pos).highOffset = pos + (l.highOffset - l.start) := by
  change (l.moved pos).elementPointersOffset + l.elementPointers * l.pointerWidth = _
  rw [moved_elementPointersOffset, highOffset, elementPointersOffset]
  omega

theorem moved_lowOffset : (l.moved pos).lowOffset = pos + (l.lowOffset - l.start) := by
  have := l.start_le_highOffset
  rw [lowOffset, moved_highOffset, moved_highLength, lowOffset]
  omega

theorem moved_stop : (l.moved pos).stop = pos + (l.stop - l.start) := by
  have := l.start_le_highOffset
  have := l.highOffset_le_lowOffset
  rw [stop, moved_lowOffset, moved_n, moved_lowWidth, stop]
  omega

variable {l}

/-- A pointer to a bucket lies in front of the high bits. -/
theorem bucketPointerAt_fits {k : Nat} (hpos : 0 < k) (hk : k ≤ l.bucketPointers) :
    l.start ≤ l.bucketPointerAt k ∧
      l.bucketPointerAt k + l.pointerWidth ≤ l.elementPointersOffset := by
  have hmul := Nat.mul_le_mul_right l.pointerWidth (show k - 1 + 1 ≤ l.bucketPointers by omega)
  rw [Nat.succ_mul] at hmul
  rw [bucketPointerAt, elementPointersOffset]
  omega

/-- So does a pointer to a value. -/
theorem elementPointerAt_fits {k : Nat} (hpos : 0 < k) (hk : k ≤ l.elementPointers) :
    l.elementPointersOffset ≤ l.elementPointerAt k ∧
      l.elementPointerAt k + l.pointerWidth ≤ l.highOffset := by
  have hmul := Nat.mul_le_mul_right l.pointerWidth (show k - 1 + 1 ≤ l.elementPointers by omega)
  rw [Nat.succ_mul] at hmul
  rw [elementPointerAt, highOffset]
  omega

/-- The low bits of a value lie behind the high bits. -/
theorem low_fits {i : Nat} (hi : i < l.n) :
    l.lowOffset + i * l.lowWidth + l.lowWidth ≤ l.stop := by
  have hmul := Nat.mul_le_mul_right l.lowWidth (show i + 1 ≤ l.n by omega)
  rw [Nat.succ_mul] at hmul
  rw [stop]
  omega

/-- What fits at one place fits at any. -/
theorem Fits.moved {values : List Nat} (h : l.Fits values) (pos : Nat) :
    (l.moved pos).Fits values :=
  ⟨h.n_eq, h.ne_nil, h.sorted, h.below, h.univ_le, h.highLength_le⟩

end Layout

/-- A region reads the same where its bits are carried to. -/
theorem Stored.carried {v w : BitString} {l : Layout} {values : List Nat} {pos : Nat}
    (h : Stored w l values) (hf : l.Fits values) (hc : v.Carries pos w l.start) :
    Stored v (l.moved pos) values := by
  have hfield : ∀ offset len, l.start ≤ offset → len ≤ 64 → offset + len ≤ l.stop →
      v.getBits (pos + (offset - l.start)) len = w.getBits offset len := by
    intro offset len hstart hlen hstop
    have := h.stop_le
    rw [hc.getBits hlen (by omega), show l.start + (offset - l.start) = offset by omega]
  have hstart := l.start_le_highOffset
  have hlow := l.highOffset_le_lowOffset
  have hstop : l.lowOffset ≤ l.stop := Nat.le_add_right _ _
  have hbase : l.start ≤ l.elementPointersOffset := Nat.le_add_right _ _
  refine ⟨?_, fun i hi => ?_, ?_, fun k hpos hk => ?_, fun k hpos hk => ?_⟩
  · have := hc.fits
    have := h.stop_le
    rw [Layout.moved_stop]
    omega
  · have hfits := Layout.low_fits (l := l) (i := i) (by rw [hf.n_eq]; exact hi)
    rw [Layout.moved_lowWidth, ← h.low_eq i hi,
      ← hfield _ _ (by omega) hf.lowWidth_le hfits, Layout.moved_lowOffset]
    congr 1
    omega
  · rw [Layout.moved_marks, Layout.moved_highLength, Layout.moved_highOffset]
    exact h.marked.carried hc (by omega)
  · have hfits := Layout.elementPointerAt_fits hpos (hf.element_fits hk)
    refine Eq.trans ?_ (h.element_eq k hpos hk)
    rw [← hfield _ _ (by omega) hf.pointerWidth_le (by omega), Layout.moved_pointerWidth,
      Layout.elementPointerAt, Layout.moved_elementPointersOffset, Layout.moved_pointerWidth,
      Layout.elementPointerAt]
    congr 1
    omega
  · have hfits := Layout.bucketPointerAt_fits (l := l) hpos hk
    have hhigh : l.elementPointersOffset ≤ l.highOffset := Nat.le_add_right _ _
    simp only [Layout.moved_params, Layout.moved_boundary, Layout.moved_pointerWidth]
    rw [← h.bucket_eq k hpos hk, ← hfield _ _ (by omega) hf.pointerWidth_le (by omega),
      Layout.bucketPointerAt, Layout.moved_pointerWidth, Layout.bucketPointerAt]
    congr 1
    change pos + _ = _
    omega

/-! ## Writing the values -/

section Values

variable {l : Layout}

@[simp] theorem size_writeValues (bits : BitString) (i : Nat) (values : List Nat) :
    (writeValues l bits i values).size = bits.size := by
  induction values generalizing bits i with
  | nil => rfl
  | cons v values ih => exact (ih _ _).trans rfl

/-- Writing the values from the `i`-th on changes high bits and the low bits of them. -/
theorem bit_writeValues {bits : BitString} {i p : Nat} {values : List Nat}
    (hmarks : ∀ m ∈ l.marksFrom i values, m < l.highLength)
    (hp : p < l.highOffset ∨ l.lowOffset ≤ p ∧ p < l.lowOffset + i * l.lowWidth ∨
      l.lowOffset + (i + values.length) * l.lowWidth ≤ p) :
    (writeValues l bits i values).bit p = bits.bit p := by
  induction values generalizing bits i with
  | nil => rfl
  | cons v values ih =>
      obtain ⟨hmark, hmarks⟩ := List.forall_mem_cons.mp hmarks
      have hlow : l.lowOffset = l.highOffset + l.highLength := rfl
      have hmul := Nat.mul_le_mul_right l.lowWidth (Nat.le_add_right i values.length)
      rw [List.length_cons, ← Nat.add_assoc, Nat.succ_mul] at hp
      rw [writeValues, ih hmarks (by
          rw [Nat.add_right_comm, Nat.succ_mul, Nat.succ_mul]; omega),
        (setBit_changedWithin _ _).bit_eq p (by omega),
        (setBits_changedWithin _ _ _ _).bit_eq p (by omega)]

/-- The high bits that are set afterwards are the marks. -/
theorem bit_writeValues_high {bits : BitString} {i x : Nat} {values : List Nat}
    (hsize : l.lowOffset ≤ bits.size) (hmarks : ∀ m ∈ l.marksFrom i values, m < l.highLength)
    (hx : x < l.highLength) :
    (writeValues l bits i values).bit (l.highOffset + x) =
      (bits.bit (l.highOffset + x) || decide (x ∈ l.marksFrom i values)) := by
  induction values generalizing bits i with
  | nil => simp [writeValues, Layout.marksFrom]
  | cons v values ih =>
      obtain ⟨hmark, hmarks⟩ := List.forall_mem_cons.mp hmarks
      have hlow : l.lowOffset = l.highOffset + l.highLength := rfl
      have hset : decide (l.highOffset + x = l.highOffset + l.high v + i) =
          decide (x = l.high v + i) := decide_eq_decide.mpr (by omega)
      rw [writeValues]
      refine (ih (by simpa using hsize) hmarks).trans ?_
      rw [bit_setBit _ (by rw [size_setBits]; omega),
        (setBits_changedWithin _ _ _ _).bit_eq _ (by omega), hset, Bool.or_assoc]
      congr 1
      simp only [Layout.marksFrom, List.mem_cons, Bool.decide_or]

/-- Each value's low bits are read back. -/
theorem getBits_writeValues {bits : BitString} {i j : Nat} {values : List Nat}
    (hw : l.lowWidth ≤ 64) (hsize : l.lowOffset + (i + values.length) * l.lowWidth ≤ bits.size)
    (hmarks : ∀ m ∈ l.marksFrom i values, m < l.highLength) (hj : j < values.length) :
    (writeValues l bits i values).getBits (l.lowOffset + (i + j) * l.lowWidth) l.lowWidth =
      values[j] % 2 ^ l.lowWidth := by
  induction values generalizing bits i j with
  | nil => cases hj
  | cons v values ih =>
      obtain ⟨hmark, hrest⟩ := List.forall_mem_cons.mp hmarks
      rw [List.length_cons, show i + (values.length + 1) = i + 1 + values.length by omega] at hsize
      cases j with
      | zero =>
          have hlow : l.lowOffset = l.highOffset + l.highLength := rfl
          have hmul := Nat.mul_le_mul_right l.lowWidth (Nat.le_add_right (i + 1) values.length)
          rw [Nat.succ_mul] at hmul
          have hset := @getBits_setBits bits _ v _ hw
            (show l.lowOffset + i * l.lowWidth + l.lowWidth ≤ bits.size by omega)
          rw [Nat.add_zero, List.getElem_cons_zero, ← hset]
          apply Nat.eq_of_testBit_eq
          intro b
          rw [testBit_getBits _ _ hw, testBit_getBits _ _ hw]
          cases Nat.lt_or_ge b l.lowWidth with
          | inl hb =>
              rw [writeValues, bit_writeValues hrest (.inr (.inl ⟨by omega, by
                  rw [Nat.succ_mul]; omega⟩)),
                (setBit_changedWithin _ _).bit_eq _ (by omega)]
          | inr hb => simp [Nat.not_lt.mpr hb]
      | succ j =>
          rw [writeValues, show i + (j + 1) = i + 1 + j by omega, List.getElem_cons_succ]
          exact ih (by simpa using hsize) hrest (by simpa using hj)

end Values

/-! ## Writing the pointers to values -/

section ElementPointers

variable {l : Layout}

/-- Writing the pointer of the `i`-th value, when it is sampled. -/
def writeElementPointer (l : Layout) (bits : BitString) (i v : Nat) : BitString :=
  if 0 < i ∧ i % 2 ^ l.params.elementLog = 0 then
    bits.setBits (l.elementPointerAt (i >>> l.params.elementLog)) (l.high v + i) l.pointerWidth
  else bits

theorem writeElementPointers_cons (l : Layout) (bits : BitString) (i v : Nat)
    (values : List Nat) : writeElementPointers l bits i (v :: values) =
      writeElementPointers l (writeElementPointer l bits i v) (i + 1) values := rfl

/-- A sampled position is its pointer's number times the sampling. -/
theorem sampled_eq {i s : Nat} (h : i % 2 ^ s = 0) : i >>> s * 2 ^ s = i := by
  rw [Nat.shiftRight_eq_div_pow]
  exact Nat.div_mul_cancel (Nat.dvd_of_mod_eq_zero h)

theorem sampled_pos {i s : Nat} (hpos : 0 < i) (h : i % 2 ^ s = 0) : 0 < i >>> s := by
  rcases Nat.eq_zero_or_pos (i >>> s) with hzero | hlt
  · have := sampled_eq h
    rw [hzero] at this
    omega
  · exact hlt

theorem elementPointerAt_lt {j k : Nat} (hpos : 0 < j) (hjk : j < k) :
    l.elementPointerAt j + l.pointerWidth ≤ l.elementPointerAt k := by
  have hmul := Nat.mul_le_mul_right l.pointerWidth (show j - 1 + 1 ≤ k - 1 by omega)
  rw [Nat.succ_mul] at hmul
  rw [Layout.elementPointerAt, Layout.elementPointerAt]
  omega

theorem writeElementPointer_changedWithin {bits : BitString} {i v : Nat} (hi : i < l.n) :
    (writeElementPointer l bits i v).ChangedWithin bits l.elementPointersOffset l.highOffset := by
  rw [writeElementPointer]
  split
  · rename_i h
    have hle : i >>> l.params.elementLog ≤ l.elementPointers := by
      rw [Layout.elementPointers, Nat.shiftRight_eq_div_pow, Nat.shiftRight_eq_div_pow]
      exact Nat.div_le_div_right (by omega)
    have := Layout.elementPointerAt_fits (sampled_pos h.1 h.2) hle
    exact (setBits_changedWithin _ _ _ _).mono this.1 this.2
  · exact .refl _ _ _

theorem writeElementPointers_changedWithin {bits : BitString} {i : Nat} {values : List Nat}
    (h : i + values.length ≤ l.n) :
    (writeElementPointers l bits i values).ChangedWithin bits l.elementPointersOffset
      l.highOffset := by
  induction values generalizing bits i with
  | nil => exact .refl _ _ _
  | cons v values ih =>
      rw [List.length_cons] at h
      rw [writeElementPointers_cons]
      exact (ih (by omega)).trans (writeElementPointer_changedWithin (by omega))

/-- Pointers to earlier values stay. -/
theorem getBits_writeElementPointers_before {bits : BitString} {i k : Nat} {values : List Nat}
    (hp : l.pointerWidth ≤ 64) (hpos : 0 < k) (hk : k * 2 ^ l.params.elementLog < i) :
    (writeElementPointers l bits i values).getBits (l.elementPointerAt k) l.pointerWidth =
      bits.getBits (l.elementPointerAt k) l.pointerWidth := by
  induction values generalizing bits i with
  | nil => rfl
  | cons v values ih =>
      rw [writeElementPointers_cons, ih (by omega), writeElementPointer]
      split
      · rename_i h
        have hlt : k < i >>> l.params.elementLog := by
          refine Nat.lt_of_mul_lt_mul_right (a := 2 ^ l.params.elementLog) ?_
          rw [sampled_eq h.2]
          exact hk
        exact (setBits_changedWithin _ _ _ _).getBits hp (.inl (elementPointerAt_lt hpos hlt))
      · rfl

/-- The pointer to a sampled value is read back. -/
theorem getBits_writeElementPointers {bits : BitString} {i k : Nat} {values : List Nat}
    (hp : l.pointerWidth ≤ 64) (hsize : l.highOffset ≤ bits.size) (hn : i + values.length ≤ l.n)
    (hpos : 0 < k) (hge : i ≤ k * 2 ^ l.params.elementLog)
    (hlt : k * 2 ^ l.params.elementLog - i < values.length) :
    (writeElementPointers l bits i values).getBits (l.elementPointerAt k) l.pointerWidth =
      (l.high values[k * 2 ^ l.params.elementLog - i] + k * 2 ^ l.params.elementLog) %
        2 ^ l.pointerWidth := by
  induction values generalizing bits i with
  | nil => cases hlt
  | cons v values ih =>
      rw [List.length_cons] at hn hlt
      rw [writeElementPointers_cons]
      rcases Nat.eq_or_lt_of_le hge with heq | hgt
      · have hmod : i % 2 ^ l.params.elementLog = 0 := by rw [heq, Nat.mul_mod_left]
        have hi : 0 < i := by
          rw [heq]
          exact Nat.mul_pos hpos (Nat.two_pow_pos _)
        have hk : i >>> l.params.elementLog = k := by
          rw [heq, Nat.shiftRight_eq_div_pow, Nat.mul_div_cancel _ (Nat.two_pow_pos _)]
        have hle : k ≤ l.elementPointers := by
          rw [← hk, Layout.elementPointers, Nat.shiftRight_eq_div_pow, Nat.shiftRight_eq_div_pow]
          exact Nat.div_le_div_right (by omega)
        have hfits := Layout.elementPointerAt_fits hpos hle
        rw [getBits_writeElementPointers_before hp hpos (by omega), writeElementPointer,
          if_pos ⟨hi, hmod⟩, hk, getBits_setBits _ hp (by omega)]
        simp only [← heq, Nat.sub_self, List.getElem_cons_zero]
      · have hsub : k * 2 ^ l.params.elementLog - i =
            k * 2 ^ l.params.elementLog - (i + 1) + 1 := by omega
        have hchanged : (writeElementPointer l bits i v).ChangedWithin bits _ _ :=
          writeElementPointer_changedWithin (by omega)
        rw [ih (by rw [hchanged.size_eq]; exact hsize) (by omega) (by omega) (by omega)]
        simp only [hsub, List.getElem_cons_succ]

end ElementPointers

/-! ## Writing the pointers to buckets -/

section BucketPointers

variable {l : Layout}

/-- What holds of the first entries only is counted by taking them. -/
theorem length_takeWhile_eq_countP {p : Nat → Bool} {values : List Nat}
    (h : values.Pairwise fun a b => p b = true → p a = true) :
    (values.takeWhile p).length = values.countP p := by
  induction values with
  | nil => rfl
  | cons v values ih =>
      obtain ⟨hv, h⟩ := List.pairwise_cons.mp h
      cases hp : p v with
      | true => rw [List.takeWhile_cons, hp, if_pos rfl, List.length_cons, ih h,
          List.countP_cons_of_pos hp]
      | false =>
          have hnone : values.countP p = 0 := by
            rw [List.countP_eq_zero]
            intro w hw hpw
            rw [hv w hw hpw] at hp
            cases hp
          rw [List.takeWhile_cons, hp, List.countP_cons_of_neg (by simp [hp]), hnone]
          rfl

/-- Behind values that are counted, the count goes on. -/
theorem add_length_takeWhile {values : List Nat} (h : values.Pairwise (· ≤ ·)) {bucket i : Nat}
    (hi : i ≤ l.countBelow values bucket) :
    i + ((values.drop i).takeWhile fun v => decide (l.high v < bucket)).length =
      l.countBelow values bucket := by
  have hle := Layout.countBelow_le (l := l) values bucket
  have hdown : (values.drop i).Pairwise fun a b =>
      decide (l.high b < bucket) = true → decide (l.high a < bucket) = true := by
    refine (h.sublist (List.drop_sublist i values)).imp fun {a b} hab hb => ?_
    have := Layout.high_mono (l := l) hab
    have := of_decide_eq_true hb
    exact decide_eq_true (by omega)
  have htake : (values.take i).countP (fun v => decide (l.high v < bucket)) = i := by
    conv_rhs => rw [← List.length_take_of_le (show i ≤ values.length by omega)]
    rw [List.countP_eq_length]
    intro v hv
    obtain ⟨j, hj, rfl⟩ := List.mem_take_iff_getElem.mp hv
    exact decide_eq_true ((Layout.high_lt_iff h bucket (by omega)).mpr (by omega))
  rw [length_takeWhile_eq_countP hdown]
  conv_rhs => rw [Layout.countBelow, ← List.take_append_drop i values, List.countP_append, htake]

theorem bucketPointerAt_lt {j k : Nat} (hpos : 0 < j) (hjk : j < k) :
    l.bucketPointerAt j + l.pointerWidth ≤ l.bucketPointerAt k := by
  have hmul := Nat.mul_le_mul_right l.pointerWidth (show j - 1 + 1 ≤ k - 1 by omega)
  rw [Nat.succ_mul] at hmul
  rw [Layout.bucketPointerAt, Layout.bucketPointerAt]
  omega

theorem writeBucketPointers_changedWithin {bits : BitString} {k i left : Nat} {values : List Nat}
    (hpos : 0 < k) :
    (writeBucketPointers l bits k i values left).ChangedWithin bits (l.bucketPointerAt k)
      (l.bucketPointerAt (k + left)) := by
  induction left generalizing bits k i values with
  | zero => exact .refl _ _ _
  | succ left ih =>
      have hnext := bucketPointerAt_lt (l := l) hpos (Nat.lt_add_one k)
      have hlast : l.bucketPointerAt (k + 1) ≤ l.bucketPointerAt (k + 1 + left) := by
        rw [Layout.bucketPointerAt, Layout.bucketPointerAt]
        have := Nat.mul_le_mul_right l.pointerWidth (show k + 1 - 1 ≤ k + 1 + left - 1 by omega)
        omega
      rw [writeBucketPointers, show k + (left + 1) = k + 1 + left by omega]
      exact ((ih (show 0 < k + 1 by omega)).mono (by omega) (Nat.le_refl _)).trans
        ((setBits_changedWithin _ _ _ _).mono (Nat.le_refl _) (by omega))

/-- The pointer to a sampled bucket is read back. -/
theorem getBits_writeBucketPointers {bits : BitString} {k i left j : Nat} {values : List Nat}
    (hsorted : values.Pairwise (· ≤ ·)) (hp : l.pointerWidth ≤ 64) (hpos : 0 < k)
    (hsize : l.bucketPointerAt (k + left) ≤ bits.size)
    (hi : i ≤ l.countBelow values (k * 2 ^ l.params.bucketLog)) (hge : k ≤ j) (hlt : j < k + left) :
    (writeBucketPointers l bits k i (values.drop i) left).getBits (l.bucketPointerAt j)
      l.pointerWidth = l.boundary values (j * 2 ^ l.params.bucketLog) % 2 ^ l.pointerWidth := by
  induction left generalizing bits k i with
  | zero => omega
  | succ left ih =>
      have hcount := add_length_takeWhile (l := l) hsorted hi
      rw [writeBucketPointers, Nat.shiftLeft_eq, List.drop_drop, hcount]
      rcases Nat.eq_or_lt_of_le hge with rfl | hgt
      · have hfits := bucketPointerAt_lt (l := l) hpos (show k < k + (left + 1) by omega)
        rw [(writeBucketPointers_changedWithin (Nat.succ_pos k)).getBits hp
          (.inl (bucketPointerAt_lt hpos (Nat.lt_succ_self k))),
          getBits_setBits _ hp (by omega)]
        rfl
      · refine ih (Nat.succ_pos k) ?_ (Layout.countBelow_mono values ?_) hgt (by omega)
        · rw [show k + 1 + left = k + (left + 1) by omega]
          exact hsize
        · exact Nat.mul_le_mul_right _ (Nat.le_succ k)

end BucketPointers

/-! ## Writing a region -/

/-- The bits after a region has been written behind `before`. -/
def written (l : Layout) (before : BitString) (values : List Nat) : BitString :=
  let bits := before.appendZeros (l.stop - l.start)
  let bits := writeValues l bits 0 values
  let bits := writeElementPointers l bits 0 values
  writeBucketPointers l bits 1 0 values l.bucketPointers

/-- What is accepted: some values in order below the universe. -/
theorem checkValues_eq_ok {values : List Nat} {univ : Nat} :
    checkValues values univ = .ok () ↔
      values ≠ [] ∧ values.Pairwise (· ≤ ·) ∧ ∀ v ∈ values, v < univ := by
  cases values with
  | nil =>
      constructor
      · intro h
        cases h
      · intro h
        exact absurd rfl h.1
  | cons first rest =>
      have hlast : (first :: rest).getLastD 0 = (first :: rest).getLast (List.cons_ne_nil _ _) := by
        rw [List.getLastD_eq_getLast?, List.getLast?_eq_some_getLast (List.cons_ne_nil _ _),
          Option.getD_some]
      rw [checkValues, hlast]
      cases hadj : firstAdjacent (fun a b => decide (b < a)) 0 (first :: rest) with
      | some found =>
          constructor
          · intro h
            cases h
          · intro h
            rw [firstAdjacent_lt_eq_none.mpr h.2.1] at hadj
            cases hadj
      | none =>
          have hsorted := firstAdjacent_lt_eq_none.mp hadj
          refine (checkArgument_eq_ok _ _ _).trans ?_
          rw [decide_eq_true_iff, getLast_lt_iff hsorted]
          exact ⟨fun h => ⟨List.cons_ne_nil _ _, hsorted, h⟩, fun h => h.2.2⟩

theorem runFrom_write {values : List Nat} {univ : Nat} (params : Params) (config : BuildConfig)
    (before : BitString) (h : checkValues values univ = .ok ()) :
    (write values univ params config).runFrom before =
      (.ok (), written ⟨before.size, univ, values.length, params⟩ before values) := by
  rw [write, Attempt.runFrom_bind, Attempt.runFrom_lift, h]
  rfl

section Written

variable {l : Layout} {before : BitString} {values : List Nat}

theorem Layout.start_le_stop (l : Layout) : l.start ≤ l.stop :=
  Nat.le_trans (Nat.le_trans l.start_le_highOffset l.highOffset_le_lowOffset) (Nat.le_add_right _ _)

/-- The region is filled in between the start and the stop of its layout. -/
theorem written_changedWithin (hf : l.Fits values) :
    (written l before values).ChangedWithin (before.appendZeros (l.stop - l.start)) l.start
      l.stop := by
  have hhigh : l.elementPointersOffset ≤ l.highOffset := Nat.le_add_right _ _
  have hlow := l.highOffset_le_lowOffset
  have hstop : l.lowOffset ≤ l.stop := Nat.le_add_right _ _
  have hstart := l.start_le_highOffset
  have hbase : l.start ≤ l.elementPointersOffset := Nat.le_add_right _ _
  have hbucket : l.bucketPointerAt (1 + l.bucketPointers) = l.elementPointersOffset := by
    rw [Layout.bucketPointerAt, Layout.elementPointersOffset, Nat.add_sub_cancel_left]
  have hfirst : l.bucketPointerAt 1 = l.start := by rw [Layout.bucketPointerAt]; omega
  have hvalues : (writeValues l (before.appendZeros (l.stop - l.start)) 0 values).ChangedWithin
      (before.appendZeros (l.stop - l.start)) l.start l.stop :=
    ⟨size_writeValues _ _ _, fun p hp => bit_writeValues hf.marks_below (by
      rw [Nat.zero_add, ← hf.n_eq]
      change p < l.highOffset ∨ _ ∨ l.stop ≤ p
      omega)⟩
  have helements : (writeElementPointers l (writeValues l (before.appendZeros (l.stop - l.start)) 0
      values) 0 values).ChangedWithin _ l.start l.stop :=
    (writeElementPointers_changedWithin (by rw [Nat.zero_add, hf.n_eq])).mono hbase
      (hlow.trans hstop)
  rw [written]
  refine ChangedWithin.trans ?_ (helements.trans hvalues)
  exact (writeBucketPointers_changedWithin Nat.one_pos).mono (by omega) (by omega)

theorem size_written (hf : l.Fits values) (hstart : l.start = before.size) :
    (written l before values).size = l.stop := by
  have := l.start_le_stop
  rw [(written_changedWithin hf).size_eq, size_appendZeros]
  omega

theorem written_extends (hf : l.Fits values) (hstart : l.start = before.size) :
    (written l before values).Extends before :=
  (written_changedWithin hf).still_extends (appendZeros_extends _ _) (by omega)

/-- What was written is stored. -/
theorem stored_written (hf : l.Fits values) (hstart : l.start = before.size) :
    Stored (written l before values) l values := by
  have hsorted := hf.sorted
  have hw := hf.lowWidth_le
  have hp := hf.pointerWidth_le
  have hhigh : l.elementPointersOffset ≤ l.highOffset := Nat.le_add_right _ _
  have hlow := l.highOffset_le_lowOffset
  have hstop : l.lowOffset ≤ l.stop := Nat.le_add_right _ _
  have hbucket : l.bucketPointerAt (1 + l.bucketPointers) = l.elementPointersOffset := by
    rw [Layout.bucketPointerAt, Layout.elementPointersOffset, Nat.add_sub_cancel_left]
  -- The three stages of writing; each one leaves alone what the stages before it wrote.
  have hzeros : (before.appendZeros (l.stop - l.start)).size = l.stop := by
    have := l.start_le_stop
    rw [size_appendZeros]
    omega
  generalize hbits : before.appendZeros (l.stop - l.start) = zeros at *
  have hvalues : (writeValues l zeros 0 values).size = l.stop := by rw [size_writeValues, hzeros]
  have helements : (writeElementPointers l (writeValues l zeros 0 values) 0 values).ChangedWithin
      (writeValues l zeros 0 values) l.elementPointersOffset l.highOffset :=
    writeElementPointers_changedWithin (by rw [Nat.zero_add, hf.n_eq])
  have hbuckets : (written l before values).ChangedWithin
      (writeElementPointers l (writeValues l zeros 0 values) 0 values) (l.bucketPointerAt 1)
      l.elementPointersOffset := by
    rw [written, hbits, ← hbucket]
    exact writeBucketPointers_changedWithin Nat.one_pos
  have hall := (hbuckets.mono (Nat.le_refl _) hhigh).trans
    (helements.mono (by rw [Layout.bucketPointerAt, Layout.elementPointersOffset]; omega)
      (Nat.le_refl _))
  have hsize : (written l before values).size = l.stop := hall.size_eq.trans hvalues
  refine ⟨Nat.le_of_eq hsize.symm, fun i hi => ?_, ⟨?_, Layout.marks_increasing hsorted,
    hf.marks_below, fun x hx => ?_⟩, fun k hpos hk => ?_, fun k hpos hk => ?_⟩
  · rw [hall.getBits hw (.inr (by omega))]
    conv_lhs => rw [← Nat.zero_add i]
    exact getBits_writeValues (i := 0) hw
      (by rw [Nat.zero_add, ← hf.n_eq, hzeros]; exact Nat.le_refl _) hf.marks_below hi
  · rw [hsize]
    exact hstop
  · have hzero : zeros.bit (l.highOffset + x) = false := by
      rw [← hbits, bit_appendZeros]
      exact bit_eq_false_of_size_le _ (by have := l.start_le_highOffset; omega)
    rw [hall.bit_eq _ (.inr (Nat.le_add_right _ _)),
      bit_writeValues_high (by rw [hzeros]; exact hstop) hf.marks_below hx, hzero, Bool.false_or,
      decide_eq_true_iff]
    rfl
  · have hfits := Layout.elementPointerAt_fits hpos (hf.element_fits hk)
    have hmark := hf.marks_below _ (List.getElem_mem (by rw [Layout.length_marks]; exact hk))
    rw [Layout.getElem_marks _ hk] at hmark
    rw [hbuckets.getBits hp (.inr hfits.1),
      getBits_writeElementPointers hp (by rw [hvalues]; omega) (by rw [Nat.zero_add, hf.n_eq]) hpos
        (Nat.zero_le _) hk]
    exact Nat.mod_eq_of_lt (Layout.Fits.lt_of_pointer hmark)
  · have hlt := hf.boundary_lt (Layout.sampled_le hk)
    rw [← Nat.mod_eq_of_lt (Layout.Fits.lt_of_pointer hlt), written, hbits]
    exact getBits_writeBucketPointers (i := 0) hsorted hp Nat.one_pos
      (by rw [hbucket, helements.size_eq, hvalues]; omega) (Nat.zero_le _) (show 1 ≤ k by omega)
      (by omega)

end Written

end EliasFano
end Postings
