import Postings.Proofs.Sequence.Damage
import Postings.Proofs.Sequence.EliasFano.Walk
import Postings.Proofs.Sequence.Partitioned.Written

/-!
# The header of a partitioned region

A reader finds the header field by field, at the distances at which the writer left
them.  What it makes of them is a layout that *knows* the list: the sizes and the
table of upper bounds are known, by cursors that follow their lists.  The layout
*holds* the list when every partition opens, too, where its payload is said to start,
unless the payloads are damaged.  The header does not reach into the payloads, so a
layout knows the list wherever the bits in front of them are found.
-/

namespace Postings
namespace Partitioned

open BitString SequenceCursor

/-! ## What a layout knows -/

/-- The sizes of the partitions are known. -/
inductive SizesHold (n : Nat) (ends : List Nat) : Sizes → Prop where
  | single (one : ends.length = 1) : SizesHold n ends .single
  | stored (several : 1 < ends.length) (c : EliasFano.Cursor) (position : Nat)
      (follows : Follows c ⟨ends.dropLast, n, position⟩) : SizesHold n ends (.stored c)
  | uniform (several : 1 < ends.length) (log : Nat) (equal : ends = uniformEnds log n) :
      SizesHold n ends (.uniform log)

/-- The bounds of the values are known, from the table or of the only partition. -/
inductive UppersHold {table : TableFormat} (values : List Nat) (univ : Nat) (ends : List Nat)
    (single : Bounds) : Option table.Cursor → Prop where
  | single (one : ends.length = 1) (known : single = boundsAt values ends 0) :
      UppersHold values univ ends single none
  | table (several : 1 < ends.length) (c : table.Cursor) (position : Nat)
      (follows : Follows c ⟨uppers values ends, univ, position⟩) :
      UppersHold values univ ends single (some c)

variable {nested : Format} {table : TableFormat} {params : Params} {config : BuildConfig}
  {values ends : List Nat} {univ : Nat}

/-- A layout that knows all that a walk over the list asks of it. -/
structure Layout.Knows (l : Layout table) (values : List Nat) (univ : Nat) (ends : List Nat) :
    Prop where
  ascending : Ascending values univ
  cut : Ends values.length ends
  n_eq : l.n = values.length
  univ_eq : l.univ = univ
  partitions_eq : l.partitions = ends.length
  sizes : SizesHold values.length ends l.sizes
  uppers : UppersHold values univ ends l.single l.uppers

/-- A layout that knows the list, and the partitions of which open, unless damaged. -/
structure Layout.Holds (damaged : Prop) (nested : Format) (l : Layout table) (values : List Nat)
    (univ : Nat) (ends : List Nat) : Prop extends l.Knows values univ ends where
  opens : ∀ p, p < ends.length →
    nested.OpensUnless damaged l.bits (l.payloadStart p) (spanAt values ends p)
      (segment values ends p) l.params

/-- A layout that was read from the header of a region in `v`; `startOf` tells where the
payloads of its partitions start. -/
structure Layout.IsRead (l : Layout table) (v : BitString) (params : Params) (values : List Nat)
    (univ : Nat) (ends : List Nat) (startOf : Nat → Nat) : Prop extends
    l.Knows values univ ends where
  bits_eq : l.bits = v
  params_eq : l.params = params
  payloadStart_eq : ∀ p, p < ends.length → l.payloadStart p = startOf p

/-- A layout that was read holds the list when the payloads are found. -/
theorem Layout.IsRead.holds {l : Layout table} {v : BitString} {startOf : Nat → Nat}
    {damaged : Prop} (h : l.IsRead v params values univ ends startOf)
    (hopens : ∀ p, p < ends.length → nested.OpensUnless damaged v (startOf p)
      (spanAt values ends p) (segment values ends p) params) :
    l.Holds damaged nested values univ ends where
  toKnows := h.toKnows
  opens p hp := by
    rw [h.bits_eq, h.params_eq, h.payloadStart_eq p hp]
    exact hopens p hp

/-! ## Fields -/

theorem readingFrom_eq {α : Type} {x : Reading α} {a : α} {pos stop : Nat}
    (h : x.runFrom pos = (.ok a, stop)) : readingFrom x pos = .ok (a, stop) := by
  rw [readingFrom, h]

theorem appendGammaPositive_extends (v : BitString) (n : Nat) :
    (v.appendGammaPositive n).Extends v :=
  appendGamma_extends v (n - 1)

/-! ## One partition -/

theorem headD_eq_getElem (hpos : 0 < values.length) : values.headD 0 = values[0] := by
  cases values with
  | nil => cases hpos
  | cons => rfl

theorem getLastD_eq_getElem (hpos : 0 < values.length) :
    values.getLastD 0 = values[values.length - 1] := by
  rw [List.getLastD_eq_getLast?, List.getLast?_eq_getElem?, List.getElem?_eq_getElem (by omega),
    Option.getD_some]

/-- One partition has all values. -/
theorem segment_single (h : Ends values.length ends) (hone : ends.length = 1) :
    segment values ends 0 = values.map (· - values.headD 0) := by
  have hstop : startAt ends 1 = values.length := by rw [← hone, h.startAt_length]
  rw [segment, hstop, startAt_zero, List.drop_zero, Nat.sub_zero, List.take_length]
  rfl

theorem upperAt_single (h : Ends values.length ends) (hone : ends.length = 1) :
    upperAt values ends 0 = values.getLastD 0 := by
  have hstop : startAt ends 1 = values.length := by rw [← hone, h.startAt_length]
  rw [upperAt, hstop, List.getLastD_eq_getLast?, List.getLast?_eq_getElem?]

/-- The distance to the last value, or zero when the universe tells it. -/
def spanField (values : List Nat) (univ : Nat) : Nat :=
  let span := values.getLastD 0 - values.headD 0
  if values.headD 0 + span + 1 = univ then 0 else span

/-- The bits in front of the payload of the only partition. -/
def singleHeader (values : List Nat) (univ : Nat) (before : BitString) : BitString :=
  let based := before.appendBits (values.headD 0) (ceilLog2 univ)
  if 1 < values.length then based.appendDelta (spanField values univ) else based

theorem singleHeader_extends (before : BitString) :
    (singleHeader values univ before).Extends
      (before.appendBits (values.headD 0) (ceilLog2 univ)) := by
  simp only [singleHeader]
  split
  · exact appendDelta_extends _ _
  · exact .refl _

theorem runFrom_writeSingle (h : Ends values.length ends) (hone : ends.length = 1)
    (before : BitString) :
    (writeSingle nested values univ params config).runFrom before =
      (nested.write (segment values ends 0) (spanAt values ends 0) params config).runFrom
        ((singleHeader values univ before).padTo 8) := by
  have hbase : baseAt values ends 0 = values.headD 0 := rfl
  rw [segment_single h hone, spanAt, upperAt_single h hone, hbase]
  by_cases hmany : 1 < values.length
  · simp only [writeSingle, singleHeader, spanField, if_pos hmany, Attempt.runFrom_bind,
      Attempt.runFrom_modify]
  · simp only [writeSingle, singleHeader, if_neg hmany, Attempt.runFrom_bind,
      Attempt.runFrom_modify]

/-- The distance is told by its field and by the universe. -/
theorem spanField_spec (hlt : values.headD 0 < values.getLastD 0) :
    (if spanField values univ = 0 then univ - values.headD 0 else spanField values univ + 1) =
      values.getLastD 0 - values.headD 0 + 1 := by
  by_cases hreach : values.headD 0 + (values.getLastD 0 - values.headD 0) + 1 = univ
  · have hzero : spanField values univ = 0 := by simp only [spanField, if_pos hreach]
    rw [if_pos hzero]
    omega
  · have hsame : spanField values univ = values.getLastD 0 - values.headD 0 := by
      simp only [spanField, if_neg hreach]
    rw [hsame, if_neg (by omega)]

theorem spanField_le : spanField values univ ≤ values.getLastD 0 - values.headD 0 := by
  simp only [spanField]
  split
  · exact Nat.zero_le _
  · exact Nat.le_refl _

theorem width_univ_le (h : Ascending values univ) : ceilLog2 univ ≤ 64 :=
  ceilLog2_le (by have := h.univ_le; omega)

theorem spanField_succ_lt (h : Ascending values univ) : spanField values univ + 1 < 2 ^ 64 := by
  have hpos := h.length_pos
  have hfield : spanField values univ ≤ values.getLastD 0 - values.headD 0 := spanField_le
  have hlast := h.below _ (List.getElem_mem (show values.length - 1 < values.length by omega))
  rw [← getLastD_eq_getElem hpos] at hlast
  have huniv := h.univ_le
  omega

/-- The first value is read where the header begins. -/
theorem runFrom_headD (h : Ascending values univ) {v before : BitString} {pos : Nat}
    (hcarries : v.Carries pos (singleHeader values univ before) before.size) :
    (v.take (ceilLog2 univ)).runFrom pos = (.ok (values.headD 0), pos + ceilLog2 univ) := by
  refine runFrom_take (hcarries.mono (singleHeader_extends before)) (width_univ_le h) ?_
  rw [headD_eq_getElem h.length_pos]
  exact Nat.lt_of_lt_of_le (h.below _ (List.getElem_mem h.length_pos)) (le_two_pow_ceilLog2 univ)

/-- Nothing follows the only value. -/
theorem size_singleHeader_of_one (h : Ascending values univ) (hone : values.length = 1)
    (before : BitString) :
    (singleHeader values univ before).size - before.size = ceilLog2 univ := by
  have hwidth := width_univ_le h
  simp only [singleHeader]
  rw [if_neg (by omega), size_appendBits]
  omega

/-- The distance is read where the first value ends, up to the end of the header. -/
theorem runFrom_spanField (h : Ascending values univ) (hmany : 1 < values.length)
    {v before : BitString} {pos : Nat}
    (hcarries : v.Carries pos (singleHeader values univ before) before.size) :
    v.delta.runFrom (pos + ceilLog2 univ) = (.ok (spanField values univ),
      pos + ((singleHeader values univ before).size - before.size)) := by
  have hwidth := width_univ_le h
  have hheader : singleHeader values univ before =
      (before.appendBits (values.headD 0) (ceilLog2 univ)).appendDelta (spanField values univ) := by
    simp only [singleHeader]
    rw [if_pos hmany]
  have hbehind := hcarries.behind (u := before.appendBits (values.headD 0) (ceilLog2 univ))
    (by rw [size_appendBits]; omega) (singleHeader_extends before)
  have hskip : pos + ((before.appendBits (values.headD 0) (ceilLog2 univ)).size - before.size) =
      pos + ceilLog2 univ := by
    rw [size_appendBits]
    omega
  rw [hskip, hheader] at hbehind
  have hdelta := runFrom_delta hbehind (spanField_succ_lt h)
  have hsize := (appendDelta_extends (before.appendBits (values.headD 0) (ceilLog2 univ))
    (spanField values univ)).size_le
  rw [size_appendBits] at hsize hdelta
  rw [hdelta, hheader]
  congr 1
  omega

theorem boundsAt_single (h : Ends values.length ends) (hone : ends.length = 1) :
    boundsAt values ends 0 = ⟨0, values.length, values.headD 0, values.getLastD 0⟩ := by
  have hstop : startAt ends 1 = values.length := by rw [← hone, h.startAt_length]
  rw [boundsAt, hstop, upperAt_single h hone]
  rfl

/-- The layout of a region of one partition. -/
def singleLayout (table : TableFormat) (v : BitString) (values : List Nat) (univ : Nat)
    (ends : List Nat) (params : Params) (payloadOffset : Nat) : Layout table where
  bits := v
  params := params
  n := values.length
  univ := univ
  partitions := 1
  sizes := .single
  uppers := none
  single := boundsAt values ends 0
  stopWidth := 0
  stopsOffset := 0
  payloadOffset := payloadOffset

/-- The header of the only partition is read back. -/
theorem readSingle_eq (hvalues : Ascending values univ) (h : Ends values.length ends)
    (hone : ends.length = 1) {v before : BitString} {pos : Nat}
    (hcarries : v.Carries pos (singleHeader values univ before) before.size) :
    Layout.readSingle table v pos univ values.length params =
      .ok (singleLayout table v values univ ends params
        (alignUp (pos + ((singleHeader values univ before).size - before.size)) 8)) := by
  have hpos := hvalues.length_pos
  have hbase := headD_eq_getElem hpos
  have hlast := getLastD_eq_getElem hpos
  have hbelow := hvalues.below _ (List.getElem_mem hpos)
  have hupper := hvalues.below _ (List.getElem_mem
    (show values.length - 1 < values.length by omega))
  have hgrowth := add_le_getElem hvalues.increasing (Nat.zero_le (values.length - 1)) (by omega)
  rw [singleLayout, boundsAt_single h hone, Layout.readSingle,
    readingFrom_eq (runFrom_headD hvalues hcarries)]
  by_cases hmany : values.length = 1
  · have hsame : values.getLastD 0 = values.headD 0 := by
      rw [hbase, hlast]
      simp only [hmany, Nat.sub_self]
    simp only [bind, Except.bind, pure, Except.pure, if_pos hmany]
    rw [if_neg (by rw [hbase]; omega), size_singleHeader_of_one hvalues hmany, hsame]
    rfl
  · have hfield : spanField values univ ≤ values.getLastD 0 - values.headD 0 := spanField_le
    have hdelta := runFrom_spanField hvalues (by omega) hcarries
    have hspan : (if spanField values univ = 0 then univ - values.headD 0
        else spanField values univ + 1) = values.getLastD 0 - values.headD 0 + 1 :=
      spanField_spec (by omega)
    simp only [bind, Except.bind, pure, Except.pure, if_neg hmany, readingFrom_eq hdelta, hspan]
    rw [if_neg (by omega)]
    congr 2
    congr 1
    omega

/-- The header of one partition is read wherever it is found. -/
theorem exists_readSingle (hvalues : Ascending values univ) (h : Ends values.length ends)
    (hone : ends.length = 1) {v before : BitString} {pos : Nat}
    (hcarries : v.Carries pos (singleHeader values univ before) before.size) :
    ∃ l : Layout table, Layout.readSingle table v pos univ values.length params = .ok l ∧
      l.IsRead v params values univ ends fun _ =>
        alignUp (pos + ((singleHeader values univ before).size - before.size)) 8 := by
  refine ⟨_, readSingle_eq hvalues h hone hcarries,
    ⟨hvalues, h, rfl, rfl, hone.symm, .single hone, .single hone rfl⟩, rfl, rfl, fun p hp => ?_⟩
  obtain rfl : p = 0 := by omega
  rw [Layout.payloadStart, if_pos rfl, Nat.zero_mul, Nat.add_zero]
  rfl

/-- The payload of the only partition is opened behind the header. -/
theorem opens_single {v before bits : BitString} {pos : Nat} (hpos : pos % 8 = before.size % 8)
    (hcarries : v.Carries pos bits before.size)
    (hbits : bits.Extends ((singleHeader values univ before).padTo 8))
    (hopens : nested.OpensWhereCarried bits ((singleHeader values univ before).padTo 8).size
      (spanAt values ends 0) (segment values ends 0) params) :
    nested.Opens v (alignUp (pos + ((singleHeader values univ before).size - before.size)) 8)
      (spanAt values ends 0) (segment values ends 0) params := by
  have hheader : (singleHeader values univ before).Extends before :=
    (singleHeader_extends before).trans (appendBits_extends _ _ _)
  have hall := hbits.trans (padTo_extends _ 8)
  have hbehind := hcarries.behind hheader.size_le hall
  have haligned := hbehind.align (by have := hheader.size_le; omega) (by
    rw [← size_padTo_eight]
    exact hbits.size_le)
  rw [← size_padTo_eight] at haligned
  refine hopens _ _ ?_ haligned
  rw [size_padTo_eight, alignUp_mod_eight, alignUp_mod_eight]

/-! ## Several partitions -/

/-- What the writer of several partitions leaves behind, part by part. -/
structure SeveralWritten (nested : Format) (table : TableFormat) (sizing : Sizing)
    (values : List Nat) (univ : Nat) (ends : List Nat) (params : Params) (config : BuildConfig)
    (before bits : BitString) where
  /-- The payloads, in a bit string of their own. -/
  payloads : BitString
  /-- What is known of them. -/
  parts : List Part
  /-- The bits up to the sizes of the partitions. -/
  sized : BitString
  /-- The bits up to the table of upper bounds. -/
  tabled : BitString
  payloads_eq : writePayloads nested params config .empty 0 (values.headD 0) values ends =
    .ok (payloads, parts)
  payloads_aligned : payloads.size % 8 = 0
  parts_eq : Payloads nested params config values univ ends 0 0 payloads parts
  sized_eq :
    if sizing = .stored then
      (EliasFano.format.write ends.dropLast values.length params config).runFrom
        (before.appendGamma (ceilLog2 (payloads.size / 8 + 1))) = (.ok (), sized)
    else sized = before.appendGamma (ceilLog2 (payloads.size / 8 + 1))
  tabled_eq : (table.write (uppers values ends) univ params config).runFrom sized = (.ok (), tabled)
  bits_eq : bits = (tabled.appendFields (ceilLog2 (payloads.size / 8 + 1))
    (parts.dropLast.map Part.stop)).padTo 8 ++ payloads

theorem map_upper_eq {payloads : BitString} {parts : List Part}
    (h : Payloads nested params config values univ ends 0 0 payloads parts) :
    parts.map Part.upper = (List.range ends.length).map (upperAt values ends) := by
  have hlen := h.length_eq
  refine List.ext_getElem (by rw [List.length_map, List.length_map, List.length_range]; omega)
    fun i hi hi' => ?_
  rw [List.getElem_map, List.getElem_map, List.getElem_range,
    h.upper_eq i (by rwa [List.length_map] at hi), Nat.zero_add]

theorem foldl_stops (bits : BitString) (parts : List Part) (width : Nat) :
    parts.foldl (fun bits part => bits.appendBits part.stop width) bits =
      bits.appendFields width (parts.map Part.stop) := by
  rw [appendFields, List.foldl_map]

theorem exists_writeSeveral (hnested : nested.Faithful params config)
    (htable : table.Faithful params) (hvalues : Ascending values univ)
    (h : Ends values.length ends) (hseveral : 1 < ends.length) (sizing : Sizing)
    (before : BitString) :
    ∃ bits, (writeSeveral nested table sizing values univ ends params config).runFrom before =
        (.ok (), bits) ∧
      Nonempty (SeveralWritten nested table sizing values univ ends params config before bits) := by
  obtain ⟨payloads, parts, hpayloads, -, haligned, hparts⟩ :=
    writePayloads_eq hnested hvalues h (Nat.zero_add _) (show BitString.empty.size % 8 = 0 from rfl)
  have hstart : writePayloads nested params config .empty 0 (values.headD 0) values ends =
      .ok (payloads, parts) := hpayloads
  have huppers := uppers_nonDecreasing h hvalues
  have hsizes := h.dropLast_nonDecreasing hseveral
    (Nat.le_trans hvalues.length_le hvalues.univ_le)
  generalize hwidth : ceilLog2 (payloads.size / 8 + 1) = width
  have hstored : ∃ sized, (if sizing = .stored then
      (EliasFano.format.write ends.dropLast values.length params config).runFrom
        (before.appendGamma width) = (.ok (), sized)
      else sized = before.appendGamma width) ∧
      Attempt.runFrom (if sizing = .stored then
        EliasFano.write ends.dropLast values.length params config else pure ())
        (before.appendGamma width) = (.ok (), sized) := by
    cases sizing with
    | stored =>
        obtain ⟨sized, hsized⟩ := (EliasFano.faithful params).accepts hsizes config
          (before.appendGamma width)
        exact ⟨sized, hsized, hsized⟩
    | uniform => exact ⟨_, rfl, rfl⟩
  obtain ⟨sized, hsized, hrun⟩ := hstored
  obtain ⟨tabled, htabled⟩ := htable.accepts huppers config sized
  refine ⟨(tabled.appendFields width (parts.dropLast.map Part.stop)).padTo 8 ++ payloads, ?_,
    ⟨⟨payloads, parts, sized, tabled, hstart, haligned, hparts, ?_, htabled, ?_⟩⟩⟩
  · have hlist : values.headD 0 :: parts.map Part.upper = uppers values ends := by
      rw [map_upper_eq hparts]
      rfl
    rw [writeSeveral, Attempt.runFrom_bind, Attempt.runFrom_lift, hstart]
    simp only [hwidth, hlist]
    rw [Attempt.runFrom_bind, Attempt.runFrom_modify]
    simp only
    cases sizing with
    | stored =>
        rw [if_pos rfl] at hrun
        simp only [if_pos]
        rw [Attempt.runFrom_bind, hrun]
        simp only
        rw [Attempt.runFrom_bind]
        have htabled' :
            Attempt.runFrom (table.write (uppers values ends) univ params config) sized =
              (.ok (), tabled) := htabled
        rw [htabled', ← foldl_stops]
        rfl
    | uniform =>
        obtain rfl : sized = before.appendGamma width := hsized
        have htabled' : Attempt.runFrom (table.write (uppers values ends) univ params config)
          (before.appendGamma width) = (.ok (), tabled) := htabled
        simp only [if_neg (show ¬ Sizing.uniform = Sizing.stored from fun h => by cases h)]
        rw [Attempt.runFrom_bind, htabled', ← foldl_stops]
        rfl
  · rw [hwidth]
    exact hsized
  · rw [hwidth]

namespace SeveralWritten

variable {sizing : Sizing} {before bits : BitString}

/-- The width of an entry of the end table. -/
def width (w : SeveralWritten nested table sizing values univ ends params config before bits) :
    Nat :=
  ceilLog2 (w.payloads.size / 8 + 1)

/-- The entries of the end table. -/
def stops (w : SeveralWritten nested table sizing values univ ends params config before bits) :
    List Nat :=
  w.parts.dropLast.map Part.stop

variable (w : SeveralWritten nested table sizing values univ ends params config before bits)
include w

theorem sized_extends (h : Ends values.length ends) (hvalues : Ascending values univ)
    (hseveral : 1 < ends.length) : w.sized.Extends (before.appendGamma w.width) := by
  have hsized := w.sized_eq
  cases sizing with
  | stored =>
      exact (EliasFano.faithful params).grows (h.dropLast_nonDecreasing hseveral
        (Nat.le_trans hvalues.length_le hvalues.univ_le)) hsized
  | uniform =>
      have heq : w.sized = before.appendGamma w.width := hsized
      rw [heq]
      exact .refl _

theorem tabled_extends (htable : table.Faithful params) (h : Ends values.length ends)
    (hvalues : Ascending values univ) : w.tabled.Extends w.sized :=
  htable.grows (uppers_nonDecreasing h hvalues) w.tabled_eq

/-- The bits in front of the payloads. -/
def stopped (w : SeveralWritten nested table sizing values univ ends params config before bits) :
    BitString :=
  (w.tabled.appendFields w.width w.stops).padTo 8

theorem bits_eq_append : bits = w.stopped ++ w.payloads := w.bits_eq

theorem extends_stopped : bits.Extends w.stopped := by
  have hbits := append_extends w.stopped w.payloads
  rwa [← w.bits_eq_append] at hbits

theorem extends_stops : bits.Extends (w.tabled.appendFields w.width w.stops) :=
  w.extends_stopped.trans (padTo_extends _ 8)

theorem extends_tabled : bits.Extends w.tabled :=
  w.extends_stops.trans (appendFields_extends _ _ _)

theorem extends_before (htable : table.Faithful params) (h : Ends values.length ends)
    (hvalues : Ascending values univ) (hseveral : 1 < ends.length) : bits.Extends before :=
  (w.extends_tabled.trans (w.tabled_extends htable h hvalues)).trans
    ((w.sized_extends h hvalues hseveral).trans (appendGamma_extends _ _))

theorem length_stops : w.stops.length = ends.length - 1 := by
  have := w.parts_eq.length_eq
  rw [stops, List.length_map, List.length_dropLast]
  omega

/-- The payloads lie behind everything else. -/
theorem carries_payloads : bits.Carries w.stopped.size w.payloads 0 := by
  have hcarries := append_carries w.stopped w.payloads
  rwa [← w.bits_eq_append] at hcarries

theorem tabled_le_stopped : w.tabled.size ≤ w.stopped.size :=
  ((padTo_extends _ 8).trans (appendFields_extends w.tabled w.width w.stops)).size_le

theorem payloads_le (hbefore : w.tabled.Extends before) :
    before.size + w.payloads.size ≤ bits.size := by
  have := w.carries_payloads.fits
  have := hbefore.size_le
  have := w.tabled_le_stopped
  omega

theorem width_le (hpayloads : w.payloads.size < 2 ^ 64) : w.width ≤ 64 :=
  ceilLog2_le (by omega)

/-- An entry of the end table fits its width. -/
theorem stop_lt {i : Nat} (hi : i < w.stops.length) : w.stops[i] < 2 ^ w.width := by
  have hlen : i < w.parts.length := by
    rw [stops, List.length_map, List.length_dropLast] at hi
    omega
  have hle := w.parts_eq.stop_le i hlen
  refine Nat.lt_of_lt_of_le ?_ (le_two_pow_ceilLog2 _)
  simp only [stops, List.getElem_map, List.getElem_dropLast]
  omega

end SeveralWritten

/-- The sizes of several partitions are read back. -/
theorem readSizes_eq {sizing : Sizing} {before bits : BitString}
    (w : SeveralWritten nested table sizing values univ ends params config before bits)
    (hvalues : Ascending values univ) (h : Ends values.length ends) (hseveral : 1 < ends.length)
    (huniform : sizing = .uniform → ends = uniformEnds params.partitionLog values.length)
    {v front : BitString} {pos : Nat} (hpos : pos % 8 = (before.appendGamma w.width).size % 8)
    (hcarries : v.Carries pos front (before.appendGamma w.width).size)
    (hfront : front.Extends w.sized) :
    ∃ sizes, Layout.readSizes v pos values.length ends.length params sizing =
        .ok (sizes, pos + (w.sized.size - (before.appendGamma w.width).size)) ∧
      SizesHold values.length ends sizes := by
  have hsizes := h.dropLast_nonDecreasing hseveral
    (Nat.le_trans hvalues.length_le hvalues.univ_le)
  have hsized := w.sized_eq
  cases sizing with
  | stored =>
      have hwrite : (EliasFano.format.write ends.dropLast values.length params config).runFrom
        (before.appendGamma w.width) = (.ok (), w.sized) := hsized
      obtain ⟨c, hc, hfollows⟩ := (EliasFano.faithful params).opens hsizes hwrite v pos hpos
        (hcarries.mono hfront)
      have hend := (EliasFano.faithful params).ends hsizes hwrite pos hpos
      rw [List.length_dropLast] at hc hend
      have hopen : EliasFano.openAt v pos values.length (ends.length - 1) params = .ok c := hc
      have hstop : EliasFano.regionEnd pos values.length (ends.length - 1) params =
        pos + (w.sized.size - (before.appendGamma w.width).size) := hend
      refine ⟨.stored c, ?_, .stored hseveral c 0 hfollows⟩
      rw [Layout.readSizes, hopen, hstop]
      rfl
  | uniform =>
      have heq : w.sized = before.appendGamma w.width := hsized
      have hlen := congrArg List.length (huniform rfl)
      rw [length_uniformEnds] at hlen
      refine ⟨.uniform params.partitionLog, ?_, .uniform hseveral _ (huniform rfl)⟩
      rw [heq, Nat.sub_self]
      simp only [Layout.readSizes]
      rw [if_neg (not_not_intro hlen)]
      rfl

/-- The table of upper bounds is opened behind the sizes. -/
theorem exists_openTable {sizing : Sizing} {before bits : BitString}
    (w : SeveralWritten nested table sizing values univ ends params config before bits)
    (htable : table.Faithful params) (hvalues : Ascending values univ)
    (h : Ends values.length ends) {v front : BitString} {pos : Nat}
    (hpos : pos % 8 = w.sized.size % 8) (hcarries : v.Carries pos front w.sized.size)
    (hfront : front.Extends w.tabled) :
    ∃ c, table.openAt v pos univ (ends.length + 1) params = .ok c ∧
      Follows c ⟨uppers values ends, univ, 0⟩ ∧
      table.regionEnd pos univ (ends.length + 1) params =
        pos + (w.tabled.size - w.sized.size) := by
  have huppers := uppers_nonDecreasing h hvalues
  obtain ⟨c, hc, hfollows⟩ := htable.opens huppers w.tabled_eq v pos hpos
    (hcarries.mono hfront)
  have hend := htable.ends huppers w.tabled_eq pos hpos
  change table.openAt v pos univ (uppers values ends).length params = _ at hc
  change table.regionEnd pos univ (uppers values ends).length params = _ at hend
  rw [length_uppers] at hc hend
  exact ⟨c, hc, hfollows, hend⟩

namespace SeveralWritten

variable {sizing : Sizing} {before bits : BitString}
  (w : SeveralWritten nested table sizing values univ ends params config before bits)

/-- Where the payload of partition `p` starts, counted from the first payload. -/
def startOf (w : SeveralWritten nested table sizing values univ ends params config before bits)
    (p : Nat) : Nat :=
  if p = 0 then 0 else (w.parts[p - 1]?.map Part.stop).getD 0 * 8

include w

/-- Every payload is opened where it starts. -/
theorem opens_payload {v : BitString} {pos : Nat} (hpos : pos % 8 = 0)
    (hpayloads : v.Carries pos w.payloads 0) {p : Nat} (hp : p < ends.length) :
    nested.Opens v (pos + w.startOf p) (spanAt values ends p) (segment values ends p) params := by
  have hopens := w.parts_eq.opens p (by rw [w.parts_eq.length_eq]; omega)
  rw [Nat.zero_add] at hopens
  rw [startOf]
  cases p with
  | zero =>
      rw [if_pos rfl] at hopens ⊢
      exact hopens _ _ hpos hpayloads
  | succ p =>
      have hpart : p < w.parts.length := by
        rw [w.parts_eq.length_eq]
        omega
      have hstop := w.parts_eq.stop_le p hpart
      have hlater := hpayloads.advance (w.parts[p].stop * 8) (by omega)
      rw [if_neg (Nat.succ_ne_zero p), Nat.add_sub_cancel,
        List.getElem?_eq_getElem hpart] at hopens ⊢
      change nested.OpensWhereCarried w.payloads (w.parts[p].stop * 8) _ _ _ at hopens
      change nested.Opens v (pos + w.parts[p].stop * 8) _ _ _
      rw [Nat.zero_add] at hlater
      exact hopens _ _ (by omega) hlater

/-- The end table says where a payload starts. -/
theorem payloadStart_eq (hwidth : w.width ≤ 64) {l : Layout table}
    (hstopWidth : l.stopWidth = w.width)
    (hstops : l.bits.Carries l.stopsOffset (w.tabled.appendFields w.width w.stops) w.tabled.size)
    {p : Nat} (hp : p < ends.length) : l.payloadStart p = l.payloadOffset + w.startOf p := by
  cases p with
  | zero => rw [Layout.payloadStart, startOf, if_pos rfl, if_pos rfl, Nat.zero_mul]
  | succ p =>
      have hindex : p < w.stops.length := by
        rw [w.length_stops]
        omega
      have hpart : p < w.parts.length := by
        rw [w.parts_eq.length_eq]
        omega
      have hentry : w.stops[p] = w.parts[p].stop := by
        simp only [SeveralWritten.stops, List.getElem_map, List.getElem_dropLast]
      have hread : l.bits.getBits (l.stopsOffset + p * l.stopWidth) l.stopWidth =
          w.parts[p].stop := by
        rw [← hentry, hstopWidth]
        exact hstops.getBits_appendFields hwidth hindex (w.stop_lt hindex)
      rw [Layout.payloadStart, startOf, if_neg (Nat.succ_ne_zero p), if_neg (Nat.succ_ne_zero p),
        Nat.add_sub_cancel, hread, List.getElem?_eq_getElem hpart]
      rfl

/-- Where the payloads begin is told by where the end table ends. -/
theorem payloadOffset_eq (hwidth : w.width ≤ 64) (htabled : before.size ≤ w.tabled.size) {pos : Nat}
    (hpos : pos % 8 = before.size % 8) :
    alignUp (pos + (w.tabled.size - before.size) + (ends.length - 1) * w.width) 8 =
      pos + (w.stopped.size - before.size) := by
  have hstops := size_appendFields w.tabled hwidth w.stops
  rw [w.length_stops] at hstops
  have hle := le_alignUp (w.tabled.appendFields w.width w.stops).size 8 (by omega)
  rw [SeveralWritten.stopped, size_padTo_eight,
    @alignUp_congr _ (w.tabled.appendFields w.width w.stops).size (by omega)]
  omega

end SeveralWritten

/-- The tables of several partitions are read wherever they are found. -/
theorem exists_readSeveral {sizing : Sizing} {before bits : BitString}
    (w : SeveralWritten nested table sizing values univ ends params config before bits)
    (htable : table.Faithful params) (hvalues : Ascending values univ)
    (h : Ends values.length ends) (hseveral : 1 < ends.length)
    (huniform : sizing = .uniform → ends = uniformEnds params.partitionLog values.length)
    (hwidth : w.width ≤ 64) {v : BitString} {pos : Nat} (hpos : pos % 8 = before.size % 8)
    (hcarries : v.Carries pos w.stopped before.size) :
    ∃ l : Layout table,
      Layout.readSeveral table v pos univ values.length ends.length params sizing = .ok l ∧
      l.IsRead v params values univ ends fun p =>
        pos + (w.stopped.size - before.size) + w.startOf p := by
  have hgamma := appendGamma_extends before w.width
  have hsized := w.sized_extends h hvalues hseveral
  have htabled := w.tabled_extends htable h hvalues
  have hstopped := (padTo_extends _ 8).trans (appendFields_extends w.tabled w.width w.stops)
  have hgammaSize := hgamma.size_le
  have hsizedSize := hsized.size_le
  have htabledSize := htabled.size_le
  have hstoppedSize := w.tabled_le_stopped
  -- Each field is found at the distance at which it was left.
  have hfirst := runFrom_gamma (hcarries.mono ((hstopped.trans htabled).trans hsized)) (by omega)
  obtain ⟨sizes, hsizes, hsizesHold⟩ := readSizes_eq w hvalues h hseveral huniform
    (show (pos + ((before.appendGamma w.width).size - before.size)) % 8 = _ by omega)
    (hcarries.behind hgammaSize ((hstopped.trans htabled).trans hsized)) (hstopped.trans htabled)
  rw [show pos + ((before.appendGamma w.width).size - before.size) +
    (w.sized.size - (before.appendGamma w.width).size) = pos + (w.sized.size - before.size) by
      omega] at hsizes
  obtain ⟨c, hc, hfollows, hend⟩ := exists_openTable w htable hvalues h
    (show (pos + (w.sized.size - before.size)) % 8 = _ by omega)
    (hcarries.behind (by omega) (hstopped.trans htabled)) hstopped
  rw [show pos + (w.sized.size - before.size) + (w.tabled.size - w.sized.size) =
    pos + (w.tabled.size - before.size) by omega] at hend
  have hstops := (hcarries.behind (by omega) hstopped).mono (padTo_extends _ 8)
  have hpad := w.payloadOffset_eq hwidth (by omega) hpos
  have hstopsRange : v.checkRange "endpoint table" (pos + (w.tabled.size - before.size))
      ((ends.length - 1) * w.width) = .ok () := by
    have hfits := hstops.fits
    have hstopsSize := size_appendFields w.tabled hwidth w.stops
    rw [w.length_stops] at hstopsSize
    rw [checkRange, if_pos (by omega)]
  have hpayloadsRange : v.checkRange "partition payloads" (pos + (w.stopped.size - before.size)) 0 =
      .ok () := by
    have hfits := hcarries.fits
    rw [checkRange, if_pos (by omega)]
  refine ⟨{
    bits := v, params, n := values.length, univ
    partitions := ends.length
    sizes := sizes
    uppers := some c
    single := ⟨0, values.length, 0, 0⟩
    stopWidth := w.width
    stopsOffset := pos + (w.tabled.size - before.size)
    payloadOffset := pos + (w.stopped.size - before.size) }, ?_,
    ⟨hvalues, h, rfl, rfl, rfl, hsizesHold, .table hseveral c 0 hfollows⟩, rfl, rfl, fun p hp => ?_⟩
  · rw [Layout.readSeveral, readingFrom_eq hfirst]
    simp only [bind, Except.bind, pure, Except.pure, if_neg (Nat.not_lt.mpr hwidth), hsizes, hc,
      hend, hpad, hstopsRange, hpayloadsRange]
    rfl
  · exact w.payloadStart_eq hwidth rfl hstops hp

/-- The payloads of several partitions are opened behind the tables. -/
theorem opens_several {sizing : Sizing} {before bits : BitString}
    (w : SeveralWritten nested table sizing values univ ends params config before bits)
    (htabled : w.tabled.Extends before) {v : BitString} {pos : Nat}
    (hpos : pos % 8 = before.size % 8) (hcarries : v.Carries pos bits before.size) {p : Nat}
    (hp : p < ends.length) :
    nested.Opens v (pos + (w.stopped.size - before.size) + w.startOf p) (spanAt values ends p)
      (segment values ends p) params := by
  have hsize := htabled.size_le
  have hstopped := w.tabled_le_stopped
  have hpayloads := (hcarries.behind (by omega) w.extends_stopped).trans w.carries_payloads
  refine w.opens_payload ?_ hpayloads hp
  have haligned : w.stopped.size % 8 = 0 := by
    rw [SeveralWritten.stopped, size_padTo_eight]
    exact alignUp_mod_eight _
  omega

end Partitioned
end Postings
