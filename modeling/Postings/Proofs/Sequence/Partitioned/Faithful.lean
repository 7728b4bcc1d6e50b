import Postings.Proofs.Sequence.Adaptive
import Postings.Proofs.Sequence.Partitioned.Walk

/-!
# Partitioned formats keep their lists

A list that is cut anyhow is written, and what was written opens to a cursor that
follows the list.  What it takes is that the format of the partitions keeps its
lists and the format of the table of upper bounds keeps tables: a partitioned
format is then such a format itself, and may be nested again.

The end table holds where the payloads end, in entries of at most 64 bits.  They
fit when the region is shorter than `2 ^ 64` bits, and also when the nested format
grows with the universe only.
-/

namespace Postings
namespace Partitioned

open BitString SequenceCursor

variable {nested : Format} {table : TableFormat} {sizing : Sizing} {params : Params}
  {config : BuildConfig} {values ends : List Nat} {univ : Nat} {before bits : BitString}

/-! ## Writing -/

/-- What the writer leaves behind the number of partitions. -/
inductive Written (nested : Format) (table : TableFormat) (sizing : Sizing) (values : List Nat)
    (univ : Nat) (ends : List Nat) (params : Params) (config : BuildConfig)
    (before bits : BitString) : Prop where
  | single (one : ends.length = 1)
      (payload : (nested.write (segment values ends 0) (spanAt values ends 0) params config).runFrom
        ((singleHeader values univ (before.appendGammaPositive ends.length)).padTo 8) =
          (.ok (), bits)) : Written nested table sizing values univ ends params config before bits
  | several (several : 1 < ends.length)
      (parts : SeveralWritten nested table sizing values univ ends params config
        (before.appendGammaPositive ends.length) bits) :
      Written nested table sizing values univ ends params config before bits

theorem exists_writePartitions (hnested : nested.Faithful params config)
    (htable : table.Faithful params) (hvalues : Ascending values univ)
    (h : Ends values.length ends) (sizing : Sizing) (before : BitString) :
    ∃ bits, (writePartitions nested table sizing values univ ends params config).runFrom before =
        (.ok (), bits) ∧
      Written nested table sizing values univ ends params config before bits := by
  have hcount := h.length_pos
  rw [writePartitions, checkEnds_eq_ok.mpr h, Attempt.runFrom_bind, Attempt.runFrom_lift]
  simp only
  rw [Attempt.runFrom_bind, Attempt.runFrom_modify]
  simp only
  by_cases hone : ends.length = 1
  · obtain ⟨bits, hwrite⟩ := hnested.accepts (ascending_segment h hvalues h.length_pos)
      ((singleHeader values univ (before.appendGammaPositive ends.length)).padTo 8)
    refine ⟨bits, ?_, .single hone hwrite⟩
    rw [if_pos hone, runFrom_writeSingle h hone, hwrite]
  · obtain ⟨bits, hwrite, ⟨hparts⟩⟩ := exists_writeSeveral hnested htable hvalues h
      (show 1 < ends.length by omega) sizing (before.appendGammaPositive ends.length)
    exact ⟨bits, by rw [if_neg hone, hwrite], .several (by omega) hparts⟩

/-- Whatever was written is what the writer leaves behind. -/
theorem written_of_write (hnested : nested.Faithful params config) (htable : table.Faithful params)
    (hvalues : Ascending values univ) (h : Ends values.length ends)
    (hwrite : (writePartitions nested table sizing values univ ends params config).runFrom before =
      (.ok (), bits)) :
    Written nested table sizing values univ ends params config before bits := by
  obtain ⟨bits', hrun, hwritten⟩ := exists_writePartitions hnested htable hvalues h sizing before
  rw [hwrite] at hrun
  cases hrun
  exact hwritten

namespace Written

/-- Everything is written behind the number of partitions. -/
theorem extends_count (w : Written nested table sizing values univ ends params config before bits)
    (hnested : nested.Faithful params config) (htable : table.Faithful params)
    (hvalues : Ascending values univ) (h : Ends values.length ends) :
    bits.Extends (before.appendGammaPositive ends.length) := by
  cases w with
  | single hone hpayload =>
      exact (hnested.grows (ascending_segment h hvalues h.length_pos) hpayload).trans
        ((padTo_extends _ 8).trans ((singleHeader_extends _).trans (appendBits_extends _ _ _)))
  | several hseveral parts => exact parts.extends_before htable h hvalues hseveral

theorem extends_before (w : Written nested table sizing values univ ends params config before bits)
    (hnested : nested.Faithful params config) (htable : table.Faithful params)
    (hvalues : Ascending values univ) (h : Ends values.length ends) : bits.Extends before :=
  (w.extends_count hnested htable hvalues h).trans (appendGammaPositive_extends _ _)

end Written

/-! ## Growing -/

theorem size_singleHeader_le (before : BitString) :
    (singleHeader values univ before).size ≤ before.size + 256 := by
  have hbase := size_appendBits before (values.headD 0) (ceilLog2 univ)
  have hspan := size_appendDelta_le (before.appendBits (values.headD 0) (ceilLog2 univ))
    (spanField values univ)
  rw [singleHeader]
  split <;> omega

theorem spanAt_le (h : Ends values.length ends) (hvalues : Ascending values univ) {p : Nat}
    (hp : p < ends.length) : spanAt values ends p ≤ univ := by
  have := upperAt_lt h hvalues hp
  rw [spanAt]
  omega

/-- The tables of several partitions and the padding take few bits beside the payloads. -/
theorem SeveralWritten.size_le
    (w : SeveralWritten nested table sizing values univ ends params config before bits)
    (hvalues : Ascending values univ) (h : Ends values.length ends) (hseveral : 1 < ends.length)
    {rate tableRate : Nat} (hrate : nested.GrowsWithin params config rate)
    (htableRate : table.GrowsWithin params tableRate) :
    bits.size ≤ before.size + (rate + 3 * tableRate + 466) * univ := by
  have hpos := hvalues.length_pos
  have hlen := hvalues.length_le
  have hcount := h.length_le
  have hgamma := size_appendGamma_le before w.width
  have hsized : w.sized.size ≤ (before.appendGamma w.width).size + 130 * (2 * univ) := by
    have hsized := w.sized_eq
    cases sizing with
    | stored =>
        have hgrown := (EliasFano.growsWithin params).size_le (h.dropLast_nonDecreasing hseveral
          (hlen.trans hvalues.univ_le)) hsized
        rw [List.length_dropLast] at hgrown
        exact hgrown.trans (Nat.add_le_add_left (Nat.mul_le_mul_left _ (by omega)) _)
    | uniform =>
        have heq : w.sized = before.appendGamma w.width := hsized
        rw [heq]
        exact Nat.le_add_right _ _
  have htabled : w.tabled.size ≤ w.sized.size + tableRate * (3 * univ) := by
    have hgrown := htableRate.size_le (uppers_nonDecreasing h hvalues) w.tabled_eq
    rw [length_uppers] at hgrown
    exact hgrown.trans (Nat.add_le_add_left (Nat.mul_le_mul_left _ (by omega)) _)
  have hstops := size_appendFields_le w.tabled w.width w.stops
  have hpad := alignUp_eight_le (w.tabled.appendFields w.width w.stops).size
  have hpayloads := w.parts_eq.size_le hrate
  have hbits : bits.size = ((w.tabled.appendFields w.width w.stops).padTo 8).size +
      w.payloads.size := by
    rw [← size_append]
    exact congrArg size w.bits_eq
  rw [size_padTo_eight] at hbits
  rw [w.length_stops] at hstops
  have hsplit := Nat.add_mul rate 7 univ
  rw [← Nat.mul_assoc, Nat.mul_comm tableRate] at htabled
  rw [Nat.add_mul, Nat.add_mul]
  omega

/-- A region takes few bits for each element of the universe, beside what the nested
format takes. -/
theorem Written.size_le
    (w : Written nested table sizing values univ ends params config before bits)
    (hvalues : Ascending values univ) (h : Ends values.length ends) {rate tableRate : Nat}
    (hrate : nested.GrowsWithin params config rate)
    (htableRate : table.GrowsWithin params tableRate) :
    bits.size ≤ before.size + (rate + 3 * tableRate + 594) * univ := by
  have hpos := hvalues.length_pos
  have hlen := hvalues.length_le
  have hgamma := size_appendGammaPositive_le before ends.length
  cases w with
  | single hone hpayload =>
      have hheader : (singleHeader values univ (before.appendGammaPositive ends.length)).size ≤ _ :=
        size_singleHeader_le _
      have hpad := alignUp_eight_le
        (singleHeader values univ (before.appendGammaPositive ends.length)).size
      have hgrown := hrate.size_le (ascending_segment h hvalues h.length_pos) hpayload
      have hspan := Nat.mul_le_mul_left rate (spanAt_le h hvalues h.length_pos)
      rw [size_padTo_eight] at hgrown
      rw [Nat.add_mul, Nat.add_mul]
      omega
  | several hseveral parts =>
      have hsize := parts.size_le hvalues h hseveral hrate htableRate
      rw [Nat.add_mul] at hsize ⊢
      omega

/-! ## Opening -/

/-- The payloads of a region are shorter than `2 ^ 64` bits: so is the region, or the
nested format grows slowly enough. -/
def Bounded (nested : Format) (params : Params) (config : BuildConfig) (before bits : BitString) :
    Prop :=
  bits.size < before.size + 2 ^ 64 ∨ nested.GrowsWithin params config (2 ^ 31)

/-- So the entries of the end table fit. -/
theorem SeveralWritten.width_le_of_bounded {front : BitString}
    (w : SeveralWritten nested table sizing values univ ends params config front bits)
    (htabled : w.tabled.Extends front) (hfront : before.size ≤ front.size)
    (hvalues : Ascending values univ) (hbounded : Bounded nested params config before bits) :
    w.width ≤ 64 := by
  have huniv := hvalues.univ_le
  refine w.width_le ?_
  rcases hbounded with hshort | hrate
  · have := w.payloads_le htabled
    omega
  · have := w.parts_eq.size_le hrate
    omega

/-- The number of partitions is read first; the rest of the header lies behind it. -/
theorem Written.read_count
    (w : Written nested table sizing values univ ends params config before bits)
    (hnested : nested.Faithful params config) (htable : table.Faithful params)
    (hvalues : Ascending values univ) (h : Ends values.length ends) {v : BitString} {pos : Nat}
    (hpos : pos % 8 = before.size % 8) (hcarries : v.Carries pos bits before.size) :
    let counted := before.appendGammaPositive ends.length
    let pos' := pos + (counted.size - before.size)
    Layout.read table v pos univ values.length params sizing =
      (if ends.length = 1 then Layout.readSingle table v pos' univ values.length params
      else Layout.readSeveral table v pos' univ values.length ends.length params sizing) ∧
    pos' % 8 = counted.size % 8 ∧ v.Carries pos' bits counted.size := by
  have hcount := h.length_pos
  have hle := h.length_le
  have hvalid := hvalues.length_le
  have huniv := hvalues.univ_le
  have hgamma := (appendGammaPositive_extends before ends.length).size_le
  have hread := runFrom_gammaPositive
    (hcarries.mono (w.extends_count hnested htable hvalues h)) hcount (by omega)
  refine ⟨?_, by omega, hcarries.behind hgamma (w.extends_count hnested htable hvalues h)⟩
  simp only [Layout.read, bind, Except.bind, readingFrom_eq hread,
    if_neg (show ¬ values.length = 0 by omega),
    if_neg (show ¬ values.length < ends.length by omega)]

/-- The header of a region is read, to a layout that holds the list. -/
theorem Written.read_eq
    (w : Written nested table sizing values univ ends params config before bits)
    (hnested : nested.Faithful params config) (htable : table.Faithful params)
    (hvalues : Ascending values univ) (h : Ends values.length ends)
    (huniform : sizing = .uniform → ends = uniformEnds params.partitionLog values.length)
    (hbounded : Bounded nested params config before bits) {v : BitString} {pos : Nat}
    (hpos : pos % 8 = before.size % 8) (hcarries : v.Carries pos bits before.size) :
    ∃ l : Layout table, Layout.read table v pos univ values.length params sizing = .ok l ∧
      l.Holds False nested values univ ends := by
  have hgamma := (appendGammaPositive_extends before ends.length).size_le
  obtain ⟨hcount, hpos', hbehind⟩ := w.read_count hnested htable hvalues h hpos hcarries
  rw [hcount]
  cases w with
  | single hone hpayload =>
      have hsegment := ascending_segment h hvalues h.length_pos
      have hpayload' := hnested.grows hsegment hpayload
      obtain ⟨l, hl, hread⟩ := exists_readSingle hvalues h hone
        (hbehind.mono (hpayload'.trans (padTo_extends _ 8)))
      rw [if_pos hone]
      refine ⟨l, hl, hread.holds fun p hp => ?_⟩
      obtain rfl : p = 0 := by omega
      exact (opens_single hpos' hbehind hpayload' (hnested.opens hsegment hpayload)).unless False
  | several hseveral parts =>
      have htabled := (parts.tabled_extends htable h hvalues).trans
        ((parts.sized_extends h hvalues hseveral).trans (appendGamma_extends _ _))
      obtain ⟨l, hl, hread⟩ := exists_readSeveral parts htable hvalues h hseveral huniform
        (parts.width_le_of_bounded htabled hgamma hvalues hbounded) hpos'
        (hbehind.mono parts.extends_stopped)
      rw [if_neg (Nat.ne_of_gt hseveral)]
      exact ⟨l, hl, hread.holds fun p hp =>
        (opens_several parts htabled hpos' hbehind hp).unless False⟩

/-- A layout that holds a list opens its first partition, and the cursor follows the
list from there, unless damaged. -/
theorem yields_of_holds {damaged : Prop} {l : Layout table}
    (h : l.Holds damaged nested values univ ends) :
    Yields (Failure.RefusedIf damaged)
      (do
        let (bounds, inner, layout) ← l.openPartition nested 0
        let inner ← SequenceCursor.moveTo inner 0
        return (⟨layout, 0, bounds, inner, 0, bounds.base + SequenceCursor.value inner⟩ :
          Cursor nested table) : Except Failure (Cursor nested table))
      fun c => FollowsUnless damaged c ⟨values, univ, 0⟩ := by
  have hpos := h.cut.length_pos
  refine (h.openPartition_yields hpos).bind ?_
  rintro ⟨bounds, inner, layout⟩ ⟨rfl, hholds, hinner, inner', hmove⟩
  change SequenceCursor.moveTo inner 0 = .ok inner' at hmove
  have hcore : Core damaged
      (⟨layout, 0, boundsAt values ends 0, inner, 0, 0⟩ : Cursor nested table) values univ ends 0 :=
    ⟨hholds, hpos, rfl, hinner⟩
  have htracks := Cursor.tracks_inside (p := ⟨values, univ, 0⟩) hcore (Nat.le_refl 0)
    (h.cut.startAt_lt hpos) ((hinner.moveTo (Nat.zero_le _)).ok hmove)
  refine .of_ok ?_ (Cursor.follows_of_tracks htracks)
  simp only [hmove]
  rfl

/-- **A region of partitions opens** wherever it is found, to a cursor that follows
the list. -/
theorem Written.opens (w : Written nested table sizing values univ ends params config before bits)
    (hnested : nested.Faithful params config) (htable : table.Faithful params)
    (hvalues : Ascending values univ) (h : Ends values.length ends)
    (huniform : sizing = .uniform → ends = uniformEnds params.partitionLog values.length)
    (hbounded : Bounded nested params config before bits) {v : BitString} {pos : Nat}
    (hpos : pos % 8 = before.size % 8) (hcarries : v.Carries pos bits before.size) :
    ∃ c, openAt nested table sizing v pos univ values.length params = .ok c ∧
      Follows c ⟨values, univ, 0⟩ := by
  obtain ⟨l, hread, hholds⟩ := w.read_eq hnested htable hvalues h huniform hbounded hpos hcarries
  obtain ⟨c, hc, hfollows⟩ := (yields_of_holds hholds).exists_ok fun _ he => he.1
  refine ⟨c, ?_, hfollows.follows⟩
  rw [openAt, hread]
  exact hc

/-! ## Uniform partitions -/

theorem runFrom_uniform_write (hparams : params.validate = .ok ())
    (hvalues : Ascending values univ) (before : BitString) :
    ((uniform nested table).write values univ params config).runFrom before =
      (writePartitions nested table .uniform values univ
        (uniformEnds params.partitionLog values.length) params config).runFrom before := by
  change Attempt.runFrom (do
    params.validate
    checkMonotone values univ
    writePartitions nested table .uniform values univ
      (uniformEnds params.partitionLog values.length) params config : Writing Unit) before = _
  rw [hparams, checkMonotone_eq_ok.mpr hvalues]
  simp only [Attempt.runFrom_bind, Attempt.runFrom_lift]

/-- **Uniform partitions keep their lists**, of any format that does. -/
theorem uniform_faithful (hparams : params.validate = .ok ())
    (hnested : nested.Faithful params config) (htable : table.Faithful params) {rate : Nat}
    (hrate : nested.GrowsWithin params config rate) (hsmall : rate ≤ 2 ^ 31) :
    (uniform nested table).Faithful params config where
  accepts hvalues before := by
    obtain ⟨bits, hrun, -⟩ := exists_writePartitions hnested htable hvalues
      (uniformEnds_ends hvalues.length_pos) .uniform before
    exact ⟨bits, by rw [runFrom_uniform_write hparams hvalues, hrun]⟩
  grows hvalues before bits hwrite := by
    rw [runFrom_uniform_write hparams hvalues] at hwrite
    exact (written_of_write hnested htable hvalues (uniformEnds_ends hvalues.length_pos)
      hwrite).extends_before hnested htable hvalues (uniformEnds_ends hvalues.length_pos)
  opens {values univ} hvalues before bits hwrite v pos hpos hcarries := by
    rw [runFrom_uniform_write hparams hvalues] at hwrite
    have hends : Ends values.length (uniformEnds params.partitionLog values.length) :=
      uniformEnds_ends hvalues.length_pos
    obtain ⟨c, hc, hfollows⟩ := (written_of_write hnested htable hvalues hends hwrite).opens hnested
      htable hvalues hends (fun _ => rfl) (.inr (hrate.mono hsmall)) hpos hcarries
    refine ⟨c, ?_, hfollows⟩
    change (do
      params.validate
      openAt nested table .uniform v pos univ values.length params :
        Except Failure (Cursor nested table)) = _
    rw [hparams]
    exact hc

theorem uniform_growsWithin (hparams : params.validate = .ok ())
    (hnested : nested.Faithful params config) (htable : table.Faithful params)
    {rate tableRate : Nat} (hrate : nested.GrowsWithin params config rate)
    (htableRate : table.GrowsWithin params tableRate) :
    (uniform nested table).GrowsWithin params config (rate + 3 * tableRate + 594) := by
  refine ⟨fun {values univ} hvalues {before bits} hwrite => ?_⟩
  have hends : Ends values.length (uniformEnds params.partitionLog values.length) :=
    uniformEnds_ends hvalues.length_pos
  rw [runFrom_uniform_write hparams hvalues] at hwrite
  have hwritten := written_of_write hnested htable hvalues hends hwrite
  exact hwritten.size_le hvalues hends hrate htableRate

end Partitioned
end Postings
