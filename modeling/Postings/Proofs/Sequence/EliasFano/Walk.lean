import Postings.Proofs.Sequence.EliasFano.Written
import Postings.Proofs.Sequence.Law

/-!
# Elias-Fano keeps its lists

The cursor knows the mark of the value it stands at.  A step looks for the next
mark; a long move starts from a pointer to a value, and a search for a bound from
the boundary of the bound's bucket.  All of them end at the right mark, since marks
are found by how many are passed over.

So it does not matter which way is taken: where a short way and a long one lead to a
position, or to a bound, they lead to the same cursor (`PathsAgree`).  Nor does it
matter that values are docids: `region_refines` takes any universe, as long as the
positions in the region have 64 bits.
-/

namespace Postings
namespace EliasFano

open SequenceCursor BitString

/-! ## The region under a cursor -/

/-- The region that a cursor walks over is that of a list. -/
structure Over (c : Cursor) (values : List Nat) (univ : Nat) : Prop where
  fits : c.layout.Fits values
  univ_eq : c.layout.univ = univ
  stored : Stored c.bits c.layout values

namespace Over

variable {c : Cursor} {values : List Nat} {univ : Nat}

theorem sorted (h : Over c values univ) : values.Pairwise (· ≤ ·) :=
  h.fits.sorted

/-- The high part and the low bits make up the value. -/
theorem read_eq (h : Over c values univ) {i : Nat} (hi : i < values.length)
    (hm : i < (c.layout.marks values).length) :
    c.read i (c.layout.highOffset + (c.layout.marks values)[i]) = values[i] := by
  have hlt : values[i] < 2 ^ 64 :=
    Nat.lt_of_lt_of_le (h.fits.below _ (List.getElem_mem hi)) h.fits.univ_le
  have hdiv := Nat.div_add_mod values[i] (2 ^ c.layout.lowWidth)
  have hshift : c.layout.high values[i] <<< c.layout.lowWidth =
      2 ^ c.layout.lowWidth * (values[i] / 2 ^ c.layout.lowWidth) := by
    rw [Layout.high, Nat.shiftRight_eq_div_pow, Nat.shiftLeft_eq, Nat.mul_comm]
  have hhigh : c.layout.highOffset + (c.layout.high values[i] + i) - c.layout.highOffset - i =
      c.layout.high values[i] := by omega
  simp only [Cursor.read, Layout.getElem_marks hm hi, h.stored.low_eq i hi]
  rw [hhigh, Nat.mod_eq_of_lt (by omega),
    ← Nat.shiftLeft_add_eq_or_of_lt (Nat.mod_lt _ (Nat.two_pow_pos _)), hshift, hdiv]

/-- A high bit is found by how many marks are passed over. -/
theorem highBit_eq (h : Over c values univ) {x k i : Nat} (hx : x ≤ c.layout.highLength)
    (hcount : (c.layout.marks values).countP (· < x) + k = i)
    (hi : i < (c.layout.marks values).length) :
    c.highBit (c.layout.highOffset + x) k =
      .ok (c.layout.highOffset + (c.layout.marks values)[i]) := by
  subst hcount
  rw [Cursor.highBit, h.stored.marked.selectOne hx hi]

/-- One mark more lies before the position behind a mark. -/
theorem countP_marks_succ (h : Over c values univ) {i : Nat}
    (hi : i < (c.layout.marks values).length) :
    (c.layout.marks values).countP (· < (c.layout.marks values)[i] + 1) = i + 1 := by
  have hincreasing := Layout.marks_increasing (l := c.layout) h.sorted
  rw [countP_lt_succ hincreasing, countP_lt_getElem hincreasing hi,
    if_pos (List.getElem_mem hi)]

theorem countP_marks_highLength (h : Over c values univ) :
    (c.layout.marks values).countP (· < c.layout.highLength) = values.length := by
  rw [Plain.countP_of_univ_le h.fits.marks_below (Nat.le_refl _), Layout.length_marks]

end Over

/-! ## Standing -/

/-- The cursor stands where the plain one does, and knows the mark there. -/
structure Tracks (c : Cursor) (p : Plain) : Prop where
  covers : Over c p.values p.univ
  position_eq : c.position = p.position
  position_le : p.position ≤ p.values.length
  value_eq : c.value = p.value
  highPos_eq : c.highPos = c.layout.highOffset +
    ((c.layout.marks p.values)[p.position]?).getD c.layout.highLength

namespace Cursor

variable {c : Cursor} {p : Plain}

theorem tracks_standAt (h : Over c p.values p.univ) {position : Nat}
    (hlt : position < p.values.length)
    (hm : position < (c.layout.marks p.values).length) :
    Tracks (c.standAt position (c.layout.highOffset + (c.layout.marks p.values)[position]))
      { p with position } where
  covers := ⟨h.fits, h.univ_eq, h.stored⟩
  position_eq := rfl
  position_le := Nat.le_of_lt hlt
  value_eq := by
    rw [Plain.value_of_lt hlt, standAt]
    exact h.read_eq hlt hm
  highPos_eq := by
    change _ = c.layout.highOffset + ((c.layout.marks p.values)[position]?).getD _
    rw [List.getElem?_eq_getElem hm, Option.getD_some]
    rfl

theorem tracks_atEnd (h : Over c p.values p.univ) :
    Tracks c.atEnd { p with position := p.values.length } where
  covers := ⟨h.fits, h.univ_eq, h.stored⟩
  position_eq := h.fits.n_eq
  position_le := Nat.le_refl _
  value_eq := by
    rw [Plain.value_of_le (Nat.le_refl p.values.length)]
    exact h.univ_eq
  highPos_eq := by
    change _ = c.layout.highOffset + ((c.layout.marks p.values)[p.values.length]?).getD _
    rw [List.getElem?_eq_none (Nat.le_of_eq (Layout.length_marks _)), Option.getD_none]
    rfl

/-- The cursor at the mark of a position; past the end there is none. -/
def place (c : Cursor) (values : List Nat) (position : Nat) : Cursor :=
  match (c.layout.marks values)[position]? with
  | some mark => c.standAt position (c.layout.highOffset + mark)
  | none => c.atEnd

theorem place_of_lt {values : List Nat} {position : Nat}
    (hm : position < (c.layout.marks values).length) :
    c.place values position =
      c.standAt position (c.layout.highOffset + (c.layout.marks values)[position]) := by
  rw [place, List.getElem?_eq_getElem hm]

theorem place_length (c : Cursor) (values : List Nat) :
    c.place values values.length = c.atEnd := by
  rw [place, List.getElem?_eq_none (Nat.le_of_eq (Layout.length_marks _))]

theorem tracks_place (h : Over c p.values p.univ) {position : Nat}
    (hle : position ≤ p.values.length) :
    Tracks (c.place p.values position) { p with position } := by
  rcases Nat.lt_or_eq_of_le hle with hlt | rfl
  · have hm : position < (c.layout.marks p.values).length := by rwa [Layout.length_marks]
    rw [place_of_lt hm]
    exact tracks_standAt h hlt hm
  · rw [place_length]
    exact tracks_atEnd h

/-! ## Moving to a position -/

/-- Where the cursor stands on a value, its mark is below the end of the high bits. -/
theorem highPos_of_lt (h : Tracks c p) (hlt : p.position < p.values.length) :
    ∃ hm : p.position < (c.layout.marks p.values).length,
      c.highPos + 1 = c.layout.highOffset + ((c.layout.marks p.values)[p.position] + 1) ∧
        (c.layout.marks p.values)[p.position] + 1 ≤ c.layout.highLength := by
  have hm : p.position < (c.layout.marks p.values).length := by rwa [Layout.length_marks]
  refine ⟨hm, ?_, h.covers.fits.marks_below _ (List.getElem_mem hm)⟩
  rw [h.highPos_eq, List.getElem?_eq_getElem hm, Option.getD_some, Nat.add_assoc]

/-- The mark of a position ahead is found by counting marks from where the cursor stands. -/
theorem highBit_ahead (h : Tracks c p) {position : Nat} (hafter : p.position < position)
    (hm : position < (c.layout.marks p.values).length) :
    c.highBit (c.highPos + 1) (position - c.position - 1) =
      .ok (c.layout.highOffset + (c.layout.marks p.values)[position]) := by
  rw [Layout.length_marks] at hm
  obtain ⟨hhere, hpos, hle⟩ := highPos_of_lt h (Nat.lt_trans hafter hm)
  rw [hpos]
  refine h.covers.highBit_eq hle ?_ _
  rw [h.covers.countP_marks_succ hhere, h.position_eq]
  omega

/-- The mark of any position is found from the nearest pointer before it. -/
theorem highBitOf_eq {values : List Nat} {univ : Nat} (h : Over c values univ) {position : Nat}
    (hm : position < (c.layout.marks values).length) :
    c.highBitOf position =
      .ok (c.layout.highOffset + (c.layout.marks values)[position]) := by
  rw [highBitOf]
  by_cases hzero : position >>> c.layout.params.elementLog = 0
  · rw [if_pos hzero]
    exact h.highBit_eq (x := 0) (Nat.zero_le _) (by simp) hm
  · have hle : position >>> c.layout.params.elementLog * 2 ^ c.layout.params.elementLog ≤
        position := by
      rw [Nat.shiftRight_eq_div_pow]
      exact Nat.div_mul_le_self _ _
    have hs := Nat.lt_of_le_of_lt hle hm
    have hs' := hs
    rw [Layout.length_marks] at hs'
    rw [if_neg hzero, Nat.shiftLeft_eq, h.stored.element_eq _ (Nat.pos_of_ne_zero hzero) hs',
      ← Layout.getElem_marks hs hs']
    refine h.highBit_eq (Nat.le_of_lt (h.fits.marks_below _ (List.getElem_mem hs))) ?_ hm
    rw [countP_lt_getElem (Layout.marks_increasing h.sorted) hs, Nat.add_sub_cancel' hle]

theorem tracks_moveTo (h : Tracks c p) {position : Nat} (hp : position ≤ p.values.length) :
    ∃ c', c.moveTo position = .ok c' ∧ Tracks c' { p with position } := by
  rw [moveTo]
  by_cases hsame : position = c.position
  · rw [if_pos hsame, hsame, h.position_eq]
    exact ⟨c, rfl, h⟩
  rw [if_neg hsame]
  by_cases hend : c.layout.n ≤ position
  · obtain rfl : position = p.values.length := by
      have := h.covers.fits.n_eq
      omega
    rw [if_pos hend]
    exact ⟨_, rfl, tracks_atEnd h.covers⟩
  have hlt : position < p.values.length := by
    have := h.covers.fits.n_eq
    omega
  have hm : position < (c.layout.marks p.values).length := by rwa [Layout.length_marks]
  rw [if_neg hend]
  refine ⟨_, ?_, tracks_standAt h.covers hlt hm⟩
  split
  · rename_i hnear
    obtain ⟨hafter, -⟩ := hnear
    rw [h.position_eq] at hafter
    rw [highBit_ahead h hafter hm]
    rfl
  · rw [highBitOf_eq h.covers hm]
    rfl

theorem tracks_next (h : Tracks c p) (hp : p.position < p.values.length) :
    ∃ c', c.next = .ok c' ∧ Tracks c' { p with position := p.position + 1 } := by
  rw [next]
  by_cases hend : c.layout.n ≤ c.position + 1
  · have hlast : p.position + 1 = p.values.length := by
      have := h.covers.fits.n_eq
      have := h.position_eq
      omega
    rw [if_pos hend, hlast]
    exact ⟨_, rfl, tracks_atEnd h.covers⟩
  · have hlt : p.position + 1 < p.values.length := by
      have := h.covers.fits.n_eq
      have := h.position_eq
      omega
    have hm : p.position + 1 < (c.layout.marks p.values).length := by rwa [Layout.length_marks]
    have hbit := highBit_ahead h (Nat.lt_add_one p.position) hm
    rw [h.position_eq, Nat.add_sub_cancel_left, Nat.sub_self] at hbit
    rw [if_neg hend, hbit, h.position_eq]
    exact ⟨_, rfl, tracks_standAt h.covers hlt hm⟩

/-! ## Searching -/

/-- The scan from a position with smaller values before it ends at the first value
that is not below the bound.  It is an induction on the values that are left. -/
theorem scanGeq_eq {values : List Nat} {univ : Nat} (h : Over c values univ) {bound left : Nat} :
    ∀ {position x}, c.layout.n - position = left → x ≤ c.layout.highLength →
      (c.layout.marks values).countP (· < x) = position →
      (∀ i (hi : i < values.length), i < position → values[i] < bound) →
      c.scanGeq bound position (c.layout.highOffset + x) =
        .ok (c.place values (values.countP (· < bound))) := by
  have hn := h.fits.n_eq
  induction left with
  | zero =>
      intro position x hleft hx hcount hbelow
      have hfound : values.countP (· < bound) = values.length :=
        Plain.countP_eq h.sorted (Nat.le_refl _) (fun i hi _ => hbelow i hi (by omega))
          fun hi => absurd hi (Nat.lt_irrefl _)
      rw [scanGeq, if_pos (by omega), hfound, place_length]
      rfl
  | succ left ih =>
      intro position x hleft hx hcount hbelow
      have hlt : position < values.length := by omega
      have hm : position < (c.layout.marks values).length := by rwa [Layout.length_marks]
      rw [scanGeq, if_neg (by omega), h.highBit_eq (k := 0) hx hcount hm]
      change (if bound ≤ c.read position _ then _ else _) = _
      rw [h.read_eq hlt hm]
      by_cases hle : bound ≤ values[position]
      · have hfound : values.countP (· < bound) = position :=
          Plain.countP_eq h.sorted (Nat.le_of_lt hlt) hbelow fun _ => hle
        rw [if_pos hle, hfound, place_of_lt hm]
        rfl
      · rw [if_neg hle, Nat.add_assoc]
        refine ih (by omega) (h.fits.marks_below _ (List.getElem_mem hm))
          (h.countP_marks_succ hm) fun i hi hip => ?_
        rcases Nat.lt_succ_iff_lt_or_eq.mp hip with hlo | rfl
        · exact hbelow i hi hlo
        · exact Nat.not_le.mp hle

/-- A bound ahead is found by a scan from where the cursor stands. -/
theorem scanGeq_ahead (h : Tracks c p) (hlt : p.position < p.values.length) {bound : Nat}
    (hval : c.value < bound) :
    c.scanGeq bound (c.position + 1) (c.highPos + 1) =
      .ok (c.place p.values (p.values.countP (· < bound))) := by
  obtain ⟨hm, hbehind, hle⟩ := highPos_of_lt h hlt
  rw [h.value_eq, Plain.value_of_lt hlt] at hval
  rw [hbehind]
  refine scanGeq_eq h.covers rfl hle
    (by rw [h.covers.countP_marks_succ hm, h.position_eq]) fun i hi hip => ?_
  rw [h.position_eq] at hip
  exact Nat.lt_of_le_of_lt (getElem_le_getElem h.covers.sorted (Nat.le_of_lt_succ hip) hlt) hval

/-- The boundary of a bucket is found from an earlier boundary. -/
theorem selectZero_boundary (h : Over c p.values p.univ) {b bucket : Nat}
    (hb : b < bucket) (hbucket : bucket ≤ c.layout.buckets) :
    c.bits.selectZero (c.layout.highOffset + c.layout.boundary p.values b) (bucket - b - 1) =
      some (c.layout.highOffset + (c.layout.boundary p.values bucket - 1)) := by
  have hcount := Layout.countP_marks_boundary (l := c.layout) h.sorted bucket
  have hbefore := Layout.countP_marks_boundary (l := c.layout) h.sorted b
  have hunset := Layout.boundary_pred_not_mem (l := c.layout) h.sorted (show 0 < bucket by omega)
  have hmono := Layout.countBelow_mono (l := c.layout) p.values (Nat.le_of_lt hb)
  have hlt := h.fits.boundary_lt hbucket
  have hpred : (c.layout.marks p.values).countP (· < c.layout.boundary p.values bucket - 1) =
      c.layout.countBelow p.values bucket := by
    have := countP_lt_succ (Layout.marks_increasing (l := c.layout) h.sorted)
      (c.layout.boundary p.values bucket - 1)
    rw [if_neg hunset, Nat.add_zero, Nat.sub_add_cancel (by rw [Layout.boundary]; omega),
      hcount] at this
    exact this.symm
  refine h.stored.marked.selectZero ?_ (by omega) hunset ?_
  · rw [Layout.boundary, Layout.boundary]
    omega
  · rw [hpred, hbefore, Layout.boundary, Layout.boundary]
    omega

/-- Any bound is found by a scan from the boundary of its bucket. -/
theorem seekGeq_eq (h : Over c p.values p.univ) {bound : Nat} (hbound : bound < p.univ) :
    c.seekGeq bound = .ok (c.place p.values (p.values.countP (· < bound))) := by
  have hbucket : c.layout.high bound ≤ c.layout.buckets :=
    Layout.high_mono (by rw [h.univ_eq]; exact Nat.le_of_lt hbound)
  -- What follows once the boundary of the bound's bucket is reached.
  have hscan : c.scanGeq bound
      (c.layout.highOffset + c.layout.boundary p.values (c.layout.high bound) -
        c.layout.highOffset - c.layout.high bound)
      (c.layout.highOffset + c.layout.boundary p.values (c.layout.high bound)) =
      .ok (c.place p.values (p.values.countP (· < bound))) := by
    refine scanGeq_eq h rfl (Nat.le_of_lt (h.fits.boundary_lt hbucket)) ?_ fun i hi hlt => ?_
    · rw [Layout.countP_marks_boundary h.sorted, Layout.boundary]
      omega
    · rw [Layout.boundary] at hlt
      have hhigh := (Layout.high_lt_iff (l := c.layout) h.sorted (c.layout.high bound) hi).mpr
        (by omega)
      by_contra hge
      have := Layout.high_mono (l := c.layout) (Nat.not_lt.mp hge)
      omega
  rw [seekGeq]
  generalize hk :
    min (c.layout.high bound >>> c.layout.params.bucketLog) c.layout.bucketPointers = k
  have hle : k * 2 ^ c.layout.params.bucketLog ≤ c.layout.high bound := by
    have hdiv : k ≤ c.layout.high bound / 2 ^ c.layout.params.bucketLog := by
      rw [← Nat.shiftRight_eq_div_pow]
      omega
    exact (Nat.le_div_iff_mul_le (Nat.two_pow_pos _)).mp hdiv
  have hstart : (if k = 0 then c.layout.highOffset
      else c.layout.highOffset +
        c.bits.getBits (c.layout.bucketPointerAt k) c.layout.pointerWidth) =
      c.layout.highOffset + c.layout.boundary p.values (k * 2 ^ c.layout.params.bucketLog) := by
    split
    · rename_i hzero
      have hnone : c.layout.countBelow p.values 0 = 0 := List.countP_eq_zero.mpr fun v _ => by simp
      rw [hzero, Nat.zero_mul, Layout.boundary, hnone, Nat.add_zero]
    · rw [h.stored.bucket_eq k (by omega) (by omega)]
  simp only [hstart, Nat.shiftLeft_eq]
  split
  · rename_i hskip
    rw [show k * 2 ^ c.layout.params.bucketLog = c.layout.high bound by omega]
    exact hscan
  · rename_i hskip
    rw [selectZero_boundary h (show k * 2 ^ c.layout.params.bucketLog < _ by omega) hbucket]
    have hpos : 0 < c.layout.boundary p.values (c.layout.high bound) := by
      rw [Layout.boundary]
      omega
    simp only [Nat.add_assoc, Nat.sub_add_cancel hpos]
    exact hscan

theorem tracks_nextGeq (h : Tracks c p) (bound : Nat) :
    ∃ c', c.nextGeq bound = .ok c' ∧ Tracks c' (p.nextGeq bound) := by
  have hplace : Tracks (c.place p.values (p.values.countP (· < bound))) (p.nextGeq bound) :=
    tracks_place h.covers List.countP_le_length
  rw [nextGeq]
  by_cases huniv : c.layout.univ ≤ bound
  · have hall := h.covers.fits.below
    rw [if_pos huniv, Plain.nextGeq, Plain.countP_of_univ_le hall huniv]
    exact ⟨_, rfl, tracks_atEnd h.covers⟩
  rw [if_neg huniv]
  split
  · rename_i hnear
    obtain ⟨hpos, hval, -⟩ := hnear
    rw [h.position_eq, h.covers.fits.n_eq] at hpos
    exact ⟨_, scanGeq_ahead h hpos hval, hplace⟩
  · rw [h.covers.univ_eq] at huniv
    exact ⟨_, seekGeq_eq h.covers (Nat.not_le.mp huniv), hplace⟩

theorem prevValue_eq (h : Tracks c p) : c.prevValue = .ok p.prevValue := by
  rw [prevValue, Plain.prevValue, h.position_eq]
  by_cases hzero : p.position = 0
  · rw [if_pos hzero, if_pos hzero]
  have hle := h.position_le
  have hlt : p.position - 1 < p.values.length := by omega
  have hm : p.position - 1 < (c.layout.marks p.values).length := by rwa [Layout.length_marks]
  have hprev : c.bits.prevOne c.highPos =
      some (c.layout.highOffset + (c.layout.marks p.values)[p.position - 1]) := by
    rw [h.highPos_eq]
    rcases Nat.lt_or_ge p.position p.values.length with hin | hout
    · have hmark : p.position < (c.layout.marks p.values).length := by rwa [Layout.length_marks]
      rw [List.getElem?_eq_getElem hmark, Option.getD_some]
      refine h.covers.stored.marked.prevOne
        (Nat.le_of_lt (h.covers.fits.marks_below _ (List.getElem_mem hmark))) ?_ hm
      rw [countP_lt_getElem (Layout.marks_increasing h.covers.sorted) hmark]
      omega
    · rw [List.getElem?_eq_none (by rw [Layout.length_marks]; exact hout), Option.getD_none]
      refine h.covers.stored.marked.prevOne (Nat.le_refl _) ?_ hm
      rw [h.covers.countP_marks_highLength]
      omega
  rw [if_neg hzero, if_neg hzero, hprev, List.getElem?_eq_getElem hlt, Option.getD_some]
  simp only [h.covers.read_eq hlt hm]

/-- Any allowed move leaves the cursor where the plain one is. -/
theorem tracks_perform (c : Cursor) (p : Plain) (m : Move) (h : Tracks c p) (hm : m.Allowed p) :
    ∃ c', perform c m = .ok c' ∧ Tracks c' (m.apply p) := by
  cases m with
  | moveTo position => exact tracks_moveTo h hm
  | next => exact tracks_next h hm
  | nextGeq bound => exact tracks_nextGeq h bound

/-- A cursor over the region of a list follows it. -/
theorem follows_of_tracks (h : Tracks c p) : Follows c p := by
  refine Follows.of_invariant (r := Tracks) (fun c p h => ?_) tracks_perform h
  exact ⟨h.covers.fits.n_eq, h.position_eq, h.value_eq, prevValue_eq h⟩

/-! ## Short ways and long ones -/

/-- The ways from where a cursor stands and those by the pointers lead to the same places. -/
structure PathsAgree (c : Cursor) : Prop where
  /-- To a position ahead. -/
  highBit_eq : ∀ {position}, c.position < position → position < c.layout.n →
    c.highBit (c.highPos + 1) (position - c.position - 1) = c.highBitOf position
  /-- To a bound ahead. -/
  scanGeq_eq : ∀ {bound}, c.position < c.layout.n → c.value < bound → bound < c.layout.univ →
    c.scanGeq bound (c.position + 1) (c.highPos + 1) = c.seekGeq bound

theorem pathsAgree_of_tracks (h : Tracks c p) : c.PathsAgree where
  highBit_eq {position} hafter hlt := by
    have hm : position < (c.layout.marks p.values).length := by
      rw [Layout.length_marks, ← h.covers.fits.n_eq]
      exact hlt
    rw [h.position_eq] at hafter
    rw [highBit_ahead h hafter hm, highBitOf_eq h.covers hm]
  scanGeq_eq {bound} hlt hval hbound := by
    rw [h.position_eq, h.covers.fits.n_eq] at hlt
    rw [h.covers.univ_eq] at hbound
    rw [scanGeq_ahead h hlt hval, seekGeq_eq h.covers hbound]

end Cursor

/-! ## The promise -/

/-- A region that is stored opens at its first value. -/
theorem openAt_eq {v : BitString} {l : Layout} {values : List Nat} (hfits : l.Fits values)
    (hstored : Stored v l values) :
    ∃ c, openAt v l.start l.univ l.n l.params = .ok c ∧ Tracks c ⟨values, l.univ, 0⟩ := by
  have hpos := hfits.length_pos
  have hm : 0 < (l.marks values).length := by rwa [Layout.length_marks]
  have hrange : v.checkRange "elias-fano" l.start (l.stop - l.start) = .ok () := by
    have := hstored.stop_le
    have := l.start_le_stop
    rw [checkRange, if_pos (by omega)]
  have hzero : (l.marks values).countP (· < 0) = 0 := by simp
  have hfirst := hstored.marked.nextOne (x := 0) (Nat.zero_le _) (by rw [hzero]; exact hm)
  simp only [hzero, Nat.add_zero] at hfirst
  have hlow : l.highOffset + (l.marks values)[0] < l.lowOffset :=
    Nat.add_lt_add_left (hfits.marks_below _ (List.getElem_mem hm)) _
  have hover : Over (Cursor.atEnd ⟨v, l, 0, 0, 0⟩) values l.univ := ⟨hfits, rfl, hstored⟩
  refine ⟨_, ?_, Cursor.tracks_standAt (p := ⟨values, l.univ, 0⟩) hover hpos hm⟩
  simp only [openAt, hrange, if_neg (show l.n ≠ 0 by rw [hfits.n_eq]; omega), hfirst,
    Option.filter_some, decide_eq_true hlow, if_true]
  rfl

/-- What was written opens wherever it is carried to. -/
theorem opens_of_fits {l : Layout} {values : List Nat} {before : BitString} (hfits : l.Fits values)
    (hstart : l.start = before.size) :
    format.OpensWhereCarried (written l before values) l.start l.univ values l.params := by
  intro v pos _ hcarries
  obtain ⟨c, hc, htracks⟩ := openAt_eq (hfits.moved pos)
    ((stored_written hfits hstart).carried hfits hcarries)
  rw [Layout.moved_n, hfits.n_eq] at hc
  exact ⟨c, hc, Cursor.follows_of_tracks htracks⟩

/-- Elias-Fano keeps every list in order. -/
theorem faithful (params : Params) : format.Faithful params := by
  have hwrite : ∀ {values univ}, NonDecreasing values univ → ∀ config before,
      (format.write values univ params config).runFrom before =
        (.ok (), written ⟨before.size, univ, values.length, params⟩ before values) :=
    fun h config before => runFrom_write params config before
      (checkValues_eq_ok.mpr ⟨h.ne_nil, h.sorted, h.below⟩)
  refine ⟨fun h config before => ⟨_, hwrite h config before⟩, ?_, ?_, ?_⟩
  · intro values univ h config before bits hw
    rw [hwrite h] at hw
    obtain rfl := congrArg Prod.snd hw
    exact written_extends (.of_nonDecreasing rfl h) rfl
  · intro values univ h config before bits hw pos _
    rw [hwrite h] at hw
    obtain rfl := congrArg Prod.snd hw
    rw [size_written (.of_nonDecreasing rfl h) rfl]
    exact Layout.moved_stop (Layout.mk before.size univ values.length params) pos
  · intro values univ h config before bits hw
    rw [hwrite h] at hw
    obtain rfl := congrArg Prod.snd hw
    exact opens_of_fits (l := ⟨before.size, univ, values.length, params⟩) (.of_nonDecreasing rfl h)
      rfl

theorem growsWithin (params : Params) : format.GrowsWithin params 130 := by
  refine ⟨fun {values univ} h {config before bits} hw => ?_⟩
  have hrun : (format.write values univ params config).runFrom before =
      (.ok (), written ⟨before.size, univ, values.length, params⟩ before values) :=
    runFrom_write params config before (checkValues_eq_ok.mpr ⟨h.ne_nil, h.sorted, h.below⟩)
  obtain rfl := congrArg Prod.snd (hrun.symm.trans hw)
  have hfits : (Layout.mk before.size univ values.length params).Fits values :=
    .of_nonDecreasing rfl h
  exact (Nat.le_of_eq (size_written hfits rfl)).trans (hfits.stop_le)

/-! ## Refinement -/

/-- **A region refines the plain list** of any universe, as long as its positions have 64
bits. -/
theorem region_refines (params : Params) (config : BuildConfig) {values : List Nat} {univ : Nat}
    (hne : values ≠ []) (hsorted : values.Pairwise (· ≤ ·)) (hlast : values.getLast hne < univ)
    (before : BitString) (huniv : univ < 2 ^ 64)
    (hstop : regionEnd before.size univ values.length params < 2 ^ 64) :
    -- What a bound finds, from any position, is the first value that is not below it.
    (∀ position bound, ((Plain.mk values univ position).nextGeq bound).position =
      values.findIdx (bound ≤ ·)) ∧
    ∃ bits, (write values univ params config).runFrom before = (.ok (), bits) ∧
      bits.Extends before ∧
      bits.size = before.size + bitSize univ values.length params ∧
      bits.size = regionEnd before.size univ values.length params ∧
      ∀ frozen : BitString, frozen.Extends bits →
        ∃ c, openAt frozen before.size univ values.length params = .ok c ∧
          Follows c ⟨values, univ, 0⟩ ∧
          -- Wherever the cursor has been moved to, short ways and long ones agree.
          ∀ moves, Move.AllAllowed ⟨values, univ, 0⟩ moves →
            ∃ c', run c moves = .ok c' ∧ c'.PathsAgree := by
  have hbelow := (getLast_lt_iff hsorted hne univ).mp hlast
  have hfits : (Layout.mk before.size univ values.length params).Fits values :=
    .of_stop rfl hne hsorted hbelow huniv hstop
  have hsize := size_written hfits rfl
  refine ⟨fun position bound => @Plain.nextGeq_position ⟨values, univ, position⟩ hsorted bound, _,
    runFrom_write params config before (checkValues_eq_ok.mpr ⟨hne, hsorted, hbelow⟩),
    written_extends hfits rfl, ?_, hsize, fun frozen hfrozen => ?_⟩
  · have hmoved := (Layout.mk 0 univ values.length params).moved_stop before.size
    exact hsize.trans hmoved
  · have hcarries := BitString.Carries.of_extends hfrozen (written_extends hfits rfl).size_le
    obtain ⟨c, hc, htracks⟩ := openAt_eq hfits ((stored_written hfits rfl).carried hfits hcarries)
    refine ⟨c, hc, Cursor.follows_of_tracks htracks, fun moves hmoves => ?_⟩
    obtain ⟨c', hc', hthere⟩ := exists_run Cursor.tracks_perform htracks hmoves
    exact ⟨c', hc', Cursor.pathsAgree_of_tracks hthere⟩

theorem region_refines_of_four :
    let before := BitString.empty.appendBits 5 3
    let values := [0, 5, 5, 2 ^ 40 - 1]
    values ≠ [] ∧ values.Pairwise (· ≤ ·) ∧ regionEnd before.size (2 ^ 40) 4 {} < 2 ^ 64 ∧
    ∃ bits c, (write values (2 ^ 40) {} {}).runFrom before = (.ok (), bits) ∧
      bits.size = 3 + bitSize (2 ^ 40) 4 {} ∧
      openAt bits 3 (2 ^ 40) 4 {} = .ok c ∧ Follows c ⟨values, 2 ^ 40, 0⟩ ∧ c.PathsAgree := by
  intro before values
  have hsorted : values.Pairwise (· ≤ ·) := by decide
  have hstop : regionEnd before.size (2 ^ 40) values.length {} < 2 ^ 64 := by decide +kernel
  obtain ⟨-, bits, hwrite, -, hsize, -, hopens⟩ := region_refines {} {} (List.cons_ne_nil _ _)
    hsorted (by decide) before (by decide) hstop
  obtain ⟨c, hc, hfollows, hpaths⟩ := hopens bits (.refl bits)
  obtain ⟨c', hc', hagree⟩ := hpaths [] trivial
  obtain rfl := Except.ok.inj hc'
  exact ⟨List.cons_ne_nil _ _, hsorted, hstop, bits, c, hwrite, hsize, hc, hfollows, hagree⟩

end EliasFano
end Postings
