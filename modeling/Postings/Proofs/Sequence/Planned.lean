import Postings.Proofs.Plan.Optimal
import Postings.Proofs.Sequence.FixedWidth
import Postings.Proofs.Sequence.Partitioned.Faithful
import Postings.Sequence.Planned

/-!
# Partitions refine plain lists

The planner cuts every list at proper ends, so the format with planned partitions
keeps its lists as the one with uniform partitions does.

`partitions_refine` says what partitions are for.  Take any format that keeps its
lists, either table of upper bounds, and any way of cutting a list: what is written
opens wherever it ends up, to a cursor that cannot be told from the one over the
plain list.  The formats of this library keep their lists, and partitions of them
are formats that keep their lists again.
-/

namespace Postings
namespace Partitioned

open BitString SequenceCursor

variable {codec : Codec} {params : Params} {config : BuildConfig} {values : List Nat} {univ : Nat}

/-! ## Planned partitions -/

theorem runFrom_planned_write {plan : Plan} (hvalues : Ascending values univ)
    (hplan : planPartitions codec values (values.headD 0) univ config = .ok plan)
    (params : Params) (before : BitString) :
    ((planned codec).write values univ params config).runFrom before =
      (writePartitions (Adaptive.format codec) EliasFano.format .stored values univ plan.ends params
        config).runFrom before := by
  change Attempt.runFrom (do
    checkMonotone values univ
    let plan ← planPartitions codec values (values.headD 0) univ config
    writePartitions (Adaptive.format codec) EliasFano.format .stored values univ plan.ends params
      config : Writing Unit) before = _
  rw [hplan, checkMonotone_eq_ok.mpr hvalues]
  simp only [Attempt.runFrom_bind, Attempt.runFrom_lift]

theorem exists_plan (codec : Codec) (hconfig : config.validate = .ok ())
    (hvalues : Ascending values univ) (params : Params) :
    ∃ ends, Ends values.length ends ∧ ∀ before,
      ((planned codec).write values univ params config).runFrom before =
        (writePartitions (Adaptive.format codec) EliasFano.format .stored values univ ends params
          config).runFrom before := by
  obtain ⟨plan, hplan, hspec⟩ := exists_planPartitions codec hconfig hvalues
    (Nat.le_refl (values.headD 0))
  exact ⟨plan.ends, hspec.ends, runFrom_planned_write hvalues hplan params⟩

/-- **Planned partitions keep their lists.** -/
theorem planned_faithful (codec : Codec) (params : Params) (hconfig : config.validate = .ok ()) :
    (planned codec).Faithful params config where
  accepts hvalues before := by
    obtain ⟨ends, hends, hrun⟩ := exists_plan codec hconfig hvalues params
    obtain ⟨bits, hwrite, -⟩ := exists_writePartitions (Adaptive.faithful codec params config)
      (EliasFano.faithful params) hvalues hends .stored before
    exact ⟨bits, by rw [hrun, hwrite]⟩
  grows hvalues before bits hwrite := by
    obtain ⟨ends, hends, hrun⟩ := exists_plan codec hconfig hvalues params
    rw [hrun] at hwrite
    exact (written_of_write (Adaptive.faithful codec params config) (EliasFano.faithful params)
      hvalues hends hwrite).extends_before (Adaptive.faithful codec params config)
      (EliasFano.faithful params) hvalues hends
  opens hvalues before bits hwrite v pos hpos hcarries := by
    obtain ⟨ends, hends, hrun⟩ := exists_plan codec hconfig hvalues params
    rw [hrun] at hwrite
    exact (written_of_write (Adaptive.faithful codec params config) (EliasFano.faithful params)
      hvalues hends hwrite).opens (Adaptive.faithful codec params config)
      (EliasFano.faithful params) hvalues hends (fun hsizing => by cases hsizing)
      (.inr ((Adaptive.growsWithin codec params config).mono (by decide))) hpos hcarries

theorem planned_growsWithin (codec : Codec) (params : Params)
    (hconfig : config.validate = .ok ()) :
    (planned codec).GrowsWithin params config 1007 := by
  refine ⟨fun {values univ} hvalues {before bits} hwrite => ?_⟩
  obtain ⟨ends, hends, hrun⟩ := exists_plan codec hconfig hvalues params
  rw [hrun] at hwrite
  exact (written_of_write (Adaptive.faithful codec params config) (EliasFano.faithful params)
    hvalues hends hwrite).size_le hvalues hends (Adaptive.growsWithin codec params config)
    (EliasFano.growsWithin params)

/-! ## Refinement -/

/-- Both tables of upper bounds keep their lists. -/
theorem table_faithful {table : TableFormat}
    (known : table = EliasFano.format ∨ table = FixedWidth.format) (params : Params) :
    table.Faithful params ∧ table.GrowsWithin params 130 := by
  rcases known with rfl | rfl
  · exact ⟨EliasFano.faithful params, EliasFano.growsWithin params⟩
  · exact ⟨FixedWidth.faithful params, (FixedWidth.growsWithin params).mono (by decide)⟩

/-- **Partitions refine plain lists.** -/
theorem partitions_refine (hparams : params.validate = .ok ()) :
    -- Formats that keep their lists, and how fast they grow.
    (∀ codec, (Adaptive.format codec).Faithful params config ∧
      (Adaptive.format codec).GrowsWithin params config 23) ∧
    (∀ codec, (GapBlocks.format codec).Faithful params config ∧
      (GapBlocks.format codec).GrowsWithin params config 79) ∧
    (EliasFano.format.toFormat.Faithful params config ∧
      EliasFano.format.toFormat.GrowsWithin params config 260) ∧
    (config.validate = .ok () → ∀ codec, (planned codec).Faithful params config ∧
      (planned codec).GrowsWithin params config 1007) ∧
    ∀ nested table, nested.Faithful params config →
      table = EliasFano.format ∨ table = FixedWidth.format →
      (∀ rate, nested.GrowsWithin params config rate → rate ≤ 2 ^ 31 →
        (uniform nested table).Faithful params config ∧
        (uniform nested table).GrowsWithin params config (rate + 984)) ∧
      ∀ values univ ends sizing, Ascending values univ → Ends values.length ends →
        (sizing = .uniform → ends = uniformEnds params.partitionLog values.length) →
        ∀ before, ∃ bits,
          (writePartitions nested table sizing values univ ends params config).runFrom before =
            (.ok (), bits) ∧
          bits.Extends before ∧
          (bits.size < before.size + 2 ^ 64 ∨ nested.GrowsWithin params config (2 ^ 31) →
            ∀ frozen : BitString, frozen.Extends bits → ∃ c,
              openAt nested table sizing frozen before.size univ values.length params = .ok c ∧
              Follows c ⟨values, univ, 0⟩) := by
  refine ⟨fun codec => ⟨Adaptive.faithful codec params config,
      Adaptive.growsWithin codec params config⟩,
    fun codec =>
      ⟨GapBlocks.faithful codec params config, GapBlocks.growsWithin codec params config⟩,
    ⟨(EliasFano.faithful params).format config, (EliasFano.growsWithin params).format config⟩,
    fun hconfig codec =>
      ⟨planned_faithful codec params hconfig, planned_growsWithin codec params hconfig⟩,
    fun nested table hnested htable => ?_⟩
  obtain ⟨htable, htableRate⟩ := table_faithful htable params
  refine ⟨fun rate hrate hsmall => ⟨uniform_faithful hparams hnested htable hrate hsmall,
      uniform_growsWithin hparams hnested htable hrate htableRate⟩,
    fun values univ ends sizing hvalues hends huniform before => ?_⟩
  obtain ⟨bits, hwrite, hwritten⟩ :=
    exists_writePartitions hnested htable hvalues hends sizing before
  refine ⟨bits, hwrite, hwritten.extends_before hnested htable hvalues hends,
    fun hbounded frozen hfrozen => ?_⟩
  exact hwritten.opens hnested htable hvalues hends huniform hbounded rfl
    (.of_extends hfrozen (hwritten.extends_before hnested htable hvalues hends).size_le)

theorem partitions_refine_of_three : (planned .vbyte).Faithful {} {} ∧ ∃ bits c,
    (writePartitions (Adaptive.format .vbyte) EliasFano.format .stored
      [1, 4, 6] 9 [2, 3] {} {}).runFrom .empty = (.ok (), bits) ∧
    openAt (Adaptive.format .vbyte) EliasFano.format .stored bits 0 9 3 {} = .ok c ∧
    Follows c ⟨[1, 4, 6], 9, 0⟩ := by
  obtain ⟨hadaptive, -, -, hplanned, hlayouts⟩ := @partitions_refine {} {} (by decide +kernel)
  refine ⟨(hplanned (by decide +kernel) .vbyte).1, ?_⟩
  obtain ⟨-, hrefine⟩ := hlayouts (Adaptive.format .vbyte) EliasFano.format (hadaptive .vbyte).1
    (.inl rfl)
  obtain ⟨bits, hwrite, -, hopens⟩ := hrefine [1, 4, 6] 9 [2, 3] .stored
    ⟨by decide, by decide, by decide, by decide⟩ ⟨rfl, by decide, by decide⟩
    (fun hsizing => by cases hsizing) .empty
  obtain ⟨c, hc, hfollows⟩ :=
    hopens (.inr ((hadaptive .vbyte).2.mono (by decide))) bits (.refl bits)
  exact ⟨bits, c, hwrite, hc, hfollows⟩

end Partitioned
end Postings
