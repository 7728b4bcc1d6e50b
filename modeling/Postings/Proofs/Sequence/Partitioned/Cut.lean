import Postings.Proofs.Bits.Cut
import Postings.Proofs.Sequence.Partitioned.Faithful
import Postings.Sequence.FixedWidth

/-!
# Partitioned regions that were cut off

What a reader makes of the front of a region is told by where the cut is.  In the header
a field is missing, or a table does not fit, or the payloads would begin behind the cut,
and each of these is refused.  Behind the header the layout is the one of the whole
region and knows the list; of the payloads, some are there in full and the others in
part or not at all.  So a partition that opens is the right one, and a walk answers
rightly until it needs bits that are missing.
-/

namespace Postings
namespace Partitioned

open BitString SequenceCursor

variable {nested : Format} {table : TableFormat} {sizing : Sizing} {params : Params}
  {config : BuildConfig} {values ends : List Nat} {univ : Nat} {before bits : BitString}
  {v cut : BitString} {pos : Nat}

/-! ## Fields and tables -/

/-- A field is missing, or is the one of the whole region and is there in full. -/
theorem readingFrom_yields {α : Type} {x : BitString → Reading α} (hx : ReadsCut v cut x) {a : α}
    {stop : Nat} (hwhole : (x v).runFrom pos = (.ok a, stop)) :
    Yields (Failure.RefusedIf True) (readingFrom (x cut) pos) fun read =>
      read = (a, stop) ∧ stop ≤ cut.size := by
  rw [readingFrom]
  cases hcut : (x cut).runFrom pos with
  | mk answer stop' =>
      cases answer with
      | error e => exact ⟨trivial, e, rfl⟩
      | ok b =>
          obtain ⟨hsame, hle⟩ := hx.eq hcut
          rw [hwhole] at hsame
          obtain ⟨hanswer, rfl⟩ := Prod.mk.inj hsame
          obtain rfl := Except.ok.inj hanswer
          exact ⟨rfl, hle⟩

theorem runFrom_of_readingFrom {α : Type} {x : Reading α} {a : α} {stop : Nat}
    (h : readingFrom x pos = .ok (a, stop)) : x.runFrom pos = (.ok a, stop) := by
  rw [readingFrom] at h
  split at h
  · rename_i hrun
    obtain ⟨rfl, rfl⟩ := Prod.mk.inj (Except.ok.inj h)
    exact hrun
  · cases h

/-- A range is missing, or is there. -/
theorem checkRange_yields (v : BitString) (element : String) (pos bits : Nat) :
    Yields (Failure.RefusedIf True)
      (liftM (v.checkRange element pos bits) : Except Failure Unit) fun _ =>
        pos + bits ≤ v.size := by
  rw [checkRange]
  by_cases hfits : pos + bits ≤ v.size
  · rw [if_pos hfits]
    exact hfits
  · rw [if_neg hfits]
    exact ⟨trivial, _, rfl⟩

theorem eliasFano_opensOrRefuses (params : Params) :
    EliasFano.format.toFormat.OpensOrRefuses params := by
  intro v pos univ n
  change Yields _ (EliasFano.openAt v pos univ n params) _
  rw [EliasFano.openAt]
  refine (checkRange_yields _ _ _ _).bind fun _ _ => ?_
  by_cases hn : n = 0
  · rw [if_pos hn]
    exact trivial
  · rw [if_neg hn]
    split
    · exact trivial
    · exact ⟨trivial, _, rfl⟩

theorem fixedWidth_opensOrRefuses (params : Params) :
    FixedWidth.format.toFormat.OpensOrRefuses params := by
  intro v pos univ n
  change Yields _ (FixedWidth.openAt v pos univ n params) _
  rw [FixedWidth.openAt]
  exact (checkRange_yields _ _ _ _).bind fun _ _ => trivial

/-! ## The header -/

/-- The header of one partition is missing in part, or is read. -/
theorem readSingle_yields (hvalues : Ascending values univ) (h : Ends values.length ends)
    (hone : ends.length = 1) (hextends : v.Extends cut)
    (hcarries : v.Carries pos (singleHeader values univ before) before.size) :
    Yields (Failure.RefusedIf True)
      (Layout.readSingle table cut pos univ values.length params) fun l =>
        l.IsRead cut params values univ ends fun _ =>
          alignUp (pos + ((singleHeader values univ before).size - before.size)) 8 := by
  by_cases hfits : pos + ((singleHeader values univ before).size - before.size) ≤ cut.size
  · obtain ⟨l, hl, hread⟩ := @exists_readSingle table params _ _ _ hvalues h hone _ _ _
      (hextends.carries_cut hcarries hfits)
    exact .of_ok hl hread
  · -- The last field that is read ends with the header.
    rw [Layout.readSingle]
    refine (readingFrom_yields (take_readsCut hextends (width_univ_le hvalues))
      (runFrom_headD hvalues hcarries)).bind ?_
    rintro _ ⟨rfl, hle⟩
    by_cases hvaluesOne : values.length = 1
    · rw [size_singleHeader_of_one hvalues hvaluesOne] at hfits
      exact absurd hle hfits
    · have hpos := hvalues.length_pos
      simp only [if_neg hvaluesOne]
      refine (readingFrom_yields (delta_readsCut hextends)
        (runFrom_spanField hvalues (by omega) hcarries)).bind ?_
      rintro _ ⟨rfl, hle⟩
      exact absurd hle hfits

/-- Where the sizes end does not depend on the bits. -/
theorem readSizes_yields {n partitions stop : Nat} {sizes : Sizes}
    (hwhole : Layout.readSizes v pos n partitions params sizing = .ok (sizes, stop)) :
    Yields (Failure.RefusedIf True) (Layout.readSizes cut pos n partitions params sizing)
      fun read => read.2 = stop := by
  cases sizing with
  | stored =>
      rw [Layout.readSizes] at hwhole ⊢
      obtain ⟨c, -, hwhole⟩ := exists_of_bind_eq_ok hwhole
      exact (eliasFano_opensOrRefuses params cut pos n (partitions - 1)).bind fun _ _ =>
        (Prod.mk.inj (Except.ok.inj hwhole)).2
  | uniform =>
      simp only [Layout.readSizes] at hwhole ⊢
      split at hwhole
      · cases hwhole
      · rename_i hexpected
        rw [if_neg hexpected]
        exact (Prod.mk.inj (Except.ok.inj hwhole)).2

/-- The tables of several partitions are missing in part, or all of them are there. -/
theorem readSeveral_yields_fits {n partitions : Nat} (hextends : v.Extends cut)
    (hrefuses : table.OpensOrRefuses params) {l : Layout table}
    (hwhole : Layout.readSeveral table v pos univ n partitions params sizing = .ok l) :
    Yields (Failure.RefusedIf True)
      (Layout.readSeveral table cut pos univ n partitions params sizing) fun _ =>
        l.payloadOffset ≤ cut.size := by
  -- The whole region is read step by step, and the cut one along with it.
  rw [Layout.readSeveral] at hwhole ⊢
  obtain ⟨⟨width, sizesStart⟩, hwidth, hwhole⟩ := exists_of_bind_eq_ok hwhole
  refine (readingFrom_yields (gamma_readsCut hextends) (runFrom_of_readingFrom hwidth)).bind ?_
  rintro _ ⟨rfl, -⟩
  simp only at hwhole ⊢
  by_cases hwide : 64 < width
  · rw [if_pos hwide] at hwhole
    cases hwhole
  rw [if_neg hwide] at hwhole ⊢
  obtain ⟨⟨sizes, tableStart⟩, hsizes, hwhole⟩ := exists_of_bind_eq_ok hwhole
  refine (readSizes_yields hsizes).bind ?_
  rintro ⟨_, _⟩ rfl
  obtain ⟨uppers, -, hwhole⟩ := exists_of_bind_eq_ok hwhole
  obtain ⟨-, hwhole⟩ := check_bind_eq_ok.mp hwhole
  obtain ⟨-, hwhole⟩ := check_bind_eq_ok.mp hwhole
  obtain rfl := Except.ok.inj hwhole
  refine (hrefuses cut _ univ (partitions + 1)).bind fun _ _ => ?_
  refine (checkRange_yields cut _ _ _).bind fun _ _ => ?_
  exact (checkRange_yields cut _ _ _).bind fun _ hfits => hfits

/-- The tables of several partitions are missing in part, or are read. -/
theorem readSeveral_yields (w : SeveralWritten nested table sizing values univ ends params config
      before bits) (htable : table.Faithful params) (hrefuses : table.OpensOrRefuses params)
    (hvalues : Ascending values univ) (h : Ends values.length ends) (hseveral : 1 < ends.length)
    (huniform : sizing = .uniform → ends = uniformEnds params.partitionLog values.length)
    (hwidth : w.width ≤ 64) (hpos : pos % 8 = before.size % 8) (hextends : v.Extends cut)
    (hcarries : v.Carries pos w.stopped before.size) :
    Yields (Failure.RefusedIf True)
      (Layout.readSeveral table cut pos univ values.length ends.length params sizing) fun l =>
        l.IsRead cut params values univ ends fun p =>
          pos + (w.stopped.size - before.size) + w.startOf p := by
  by_cases hfits : pos + (w.stopped.size - before.size) ≤ cut.size
  · obtain ⟨l, hl, hread⟩ := exists_readSeveral w htable hvalues h hseveral huniform hwidth hpos
      (hextends.carries_cut hcarries hfits)
    exact .of_ok hl hread
  · obtain ⟨l, hl, hread⟩ := exists_readSeveral w htable hvalues h hseveral huniform hwidth hpos
      hcarries
    have hstart : l.payloadOffset = pos + (w.stopped.size - before.size) :=
      hread.payloadStart_eq 0 h.length_pos
    refine (readSeveral_yields_fits hextends hrefuses hl).imp fun _ hle => ?_
    exact absurd (hstart ▸ hle) hfits

/-! ## The region -/

/-- The header of a region that was cut off is missing in part, or is read, to a layout
that holds the list unless payloads are missing. -/
theorem Written.read_cut
    (w : Written nested table sizing values univ ends params config before bits)
    (hnested : nested.Faithful params config) (hwithstands : nested.WithstandsCuts params)
    (htable : table.Faithful params) (hrefuses : table.OpensOrRefuses params)
    (hvalues : Ascending values univ) (h : Ends values.length ends)
    (huniform : sizing = .uniform → ends = uniformEnds params.partitionLog values.length)
    (hbounded : Bounded nested params config before bits) (hpos : pos % 8 = before.size % 8)
    (hcarries : v.Carries pos bits before.size) (hextends : v.Extends cut)
    (haligned : cut.size % 8 = 0) :
    Yields (Failure.RefusedIf True)
      (Layout.read table cut pos univ values.length params sizing) fun l =>
        l.Holds True nested values univ ends := by
  have hcount := h.length_pos
  have hle := h.length_le
  have hvalid := hvalues.length_le
  have huniv := hvalues.univ_le
  have hcounted := w.extends_count hnested htable hvalues h
  have hgamma := (appendGammaPositive_extends before ends.length).size_le
  have hbehind := hcarries.behind hgamma hcounted
  have hpos' : (pos + ((before.appendGammaPositive ends.length).size - before.size)) % 8 =
      (before.appendGammaPositive ends.length).size % 8 := by omega
  rw [Layout.read, if_neg (show ¬ values.length = 0 by omega)]
  refine (readingFrom_yields (gammaPositive_readsCut hextends)
    (runFrom_gammaPositive (hcarries.mono hcounted) hcount (by omega))).bind ?_
  rintro _ ⟨rfl, -⟩
  simp only [if_neg (show ¬ values.length < ends.length by omega)]
  cases w with
  | single hone hpayload =>
      have hsegment := ascending_segment h hvalues hcount
      have hpayload' := hnested.grows hsegment hpayload
      rw [if_pos hone]
      refine (readSingle_yields hvalues h hone hextends
        (hbehind.mono (hpayload'.trans (padTo_extends _ 8)))).imp fun l hread => ?_
      refine hread.holds fun p hp => ?_
      obtain rfl : p = 0 := by omega
      exact hwithstands hextends haligned
        (opens_single hpos' hbehind hpayload' (hnested.opens hsegment hpayload))
  | several hseveral parts =>
      have htabled := (parts.tabled_extends htable h hvalues).trans
        ((parts.sized_extends h hvalues hseveral).trans (appendGamma_extends _ _))
      rw [if_neg (Nat.ne_of_gt hseveral)]
      refine (readSeveral_yields parts htable hrefuses hvalues h hseveral huniform
        (parts.width_le_of_bounded htabled hgamma hvalues hbounded) hpos' hextends
        (hbehind.mono parts.extends_stopped)).imp fun l hread => ?_
      exact hread.holds fun p hp =>
        hwithstands hextends haligned (opens_several parts htabled hpos' hbehind hp)

/-- **A region that was cut off is never misread.**  Wherever the cut is, the region is
refused, or opens to a cursor that follows the list, unless damaged. -/
theorem Written.opens_cut
    (w : Written nested table sizing values univ ends params config before bits)
    (hnested : nested.Faithful params config) (hwithstands : nested.WithstandsCuts params)
    (htable : table.Faithful params) (hrefuses : table.OpensOrRefuses params)
    (hvalues : Ascending values univ) (h : Ends values.length ends)
    (huniform : sizing = .uniform → ends = uniformEnds params.partitionLog values.length)
    (hbounded : Bounded nested params config before bits) (hpos : pos % 8 = before.size % 8)
    (hcarries : v.Carries pos bits before.size) (hextends : v.Extends cut)
    (haligned : cut.size % 8 = 0) :
    Yields (Failure.RefusedIf True)
      (openAt nested table sizing cut pos univ values.length params) fun c =>
        FollowsUnless True c ⟨values, univ, 0⟩ :=
  (w.read_cut hnested hwithstands htable hrefuses hvalues h huniform hbounded hpos hcarries hextends
    haligned).bind fun _ hholds => yields_of_holds hholds

end Partitioned
end Postings
