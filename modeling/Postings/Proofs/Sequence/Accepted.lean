import Postings.Proofs.Sequence.Planned

/-!
# What is accepted is kept

A writer checks its list, its parameters and its settings before it writes, so a list
that was written is one that the format keeps.  A format is *sound* when nothing
need be known of what it was given but that it accepted it, in a universe whose
values fit a posting.

The formats of the library are those of one piece, the one with planned partitions, and
those with uniform partitions of a format of the library.  All of them are sound.  The
planner refuses settings that make no sense, so under such settings a format may refuse
every list; one that refuses every partition refuses every list.
-/

namespace Postings

/-- Whatever a format accepts, it keeps. -/
structure Format.Sound (f : Format) (params : Params) (config : BuildConfig) : Prop where
  keeps : ∀ {values univ}, univ ≤ 2 ^ 32 → values.length ≤ 2 ^ 32 → ∀ {before bits},
    (f.write values univ params config).runFrom before = (.ok (), bits) →
      bits.Extends before ∧ f.OpensWhereCarried bits before.size univ values params

/-- A format accepts nothing. -/
structure Format.Refuses (f : Format) (params : Params) (config : BuildConfig) : Prop where
  not_ok : ∀ {values univ before bits},
    (f.write values univ params config).runFrom before ≠ (.ok (), bits)

/-- The formats of the library, each with how many bits it needs for a number of the
universe. -/
inductive Shipped : Format → Nat → Prop where
  | adaptive (codec : Codec) : Shipped (Adaptive.format codec) 23
  | gapBlocks (codec : Codec) : Shipped (GapBlocks.format codec) 79
  | eliasFano : Shipped EliasFano.format.toFormat 260
  | fixedWidth : Shipped FixedWidth.format.toFormat 78
  | planned (codec : Codec) : Shipped (Partitioned.planned codec) 1007
  | uniform {nested : Format} {table : TableFormat} {rate : Nat} (shipped : Shipped nested rate)
      (small : rate ≤ 2 ^ 31) (known : table = EliasFano.format ∨ table = FixedWidth.format) :
      Shipped (Partitioned.uniform nested table) (rate + 984)

variable {params : Params} {config : BuildConfig}

/-! ## Settings that make no sense -/

/-- Settings that the planner accepted make sense. -/
theorem validate_of_planPartitions {codec : Codec} {values : List Nat} {base univ : Nat}
    {plan : Plan} (h : planPartitions codec values base univ config = .ok plan) :
    config.validate = .ok () := by
  rw [planPartitions] at h
  exact (check_bind_eq_ok.mp h).1

namespace Partitioned

/-- What a writer of uniform partitions checked before it wrote them. -/
theorem of_write_uniform {nested : Format} {table : TableFormat} {values : List Nat} {univ : Nat}
    {before bits : BitString}
    (h : ((uniform nested table).write values univ params config).runFrom before = (.ok (), bits)) :
    params.validate = .ok () ∧ Ascending values univ ∧
      (writePartitions nested table .uniform values univ
        (uniformEnds params.partitionLog values.length) params config).runFrom before =
        (.ok (), bits) := by
  have hrun : Attempt.runFrom (do
      params.validate
      checkMonotone values univ
      writePartitions nested table .uniform values univ
        (uniformEnds params.partitionLog values.length) params config : Writing Unit) before =
      (.ok (), bits) := h
  obtain ⟨_, hparams, hrest⟩ := Attempt.of_runFrom_lift_bind hrun
  obtain ⟨_, hcheck, hwrite⟩ := Attempt.of_runFrom_lift_bind hrest
  exact ⟨hparams, checkMonotone_eq_ok.mp hcheck, hwrite⟩

/-- What a writer of planned partitions checked before it wrote them. -/
theorem of_write_planned {codec : Codec} {values : List Nat} {univ : Nat} {before bits : BitString}
    (h : ((planned codec).write values univ params config).runFrom before = (.ok (), bits)) :
    Ascending values univ ∧ config.validate = .ok () := by
  have hrun : Attempt.runFrom (do
      checkMonotone values univ
      let plan ← planPartitions codec values (values.headD 0) univ config
      writePartitions (Adaptive.format codec) EliasFano.format .stored values univ plan.ends params
        config : Writing Unit) before = (.ok (), bits) := h
  obtain ⟨_, hcheck, hrest⟩ := Attempt.of_runFrom_lift_bind hrun
  obtain ⟨plan, hplan, -⟩ := Attempt.of_runFrom_lift_bind hrest
  exact ⟨checkMonotone_eq_ok.mp hcheck, validate_of_planPartitions hplan⟩

theorem writeSingle_refused {nested : Format} {values : List Nat} {univ : Nat}
    {before bits : BitString} (h : nested.Refuses params config) :
    (writeSingle nested values univ params config).runFrom before ≠ (.ok (), bits) := by
  intro hrun
  rw [writeSingle] at hrun
  obtain ⟨_, _, -, hrun⟩ := Attempt.of_runFrom_bind hrun
  by_cases hmany : 1 < values.length
  · rw [if_pos hmany] at hrun
    obtain ⟨_, _, -, hrun⟩ := Attempt.of_runFrom_bind hrun
    obtain ⟨_, _, -, hrun⟩ := Attempt.of_runFrom_bind hrun
    exact h.not_ok hrun
  · rw [if_neg hmany] at hrun
    obtain ⟨_, _, -, hrun⟩ := Attempt.of_runFrom_bind hrun
    exact h.not_ok hrun

theorem writeSeveral_refused {nested : Format} {table : TableFormat} {sizing : Sizing}
    {values ends : List Nat} {univ : Nat} {before bits : BitString} (hends : ends ≠ [])
    (h : nested.Refuses params config) :
    (writeSeveral nested table sizing values univ ends params config).runFrom before ≠
      (.ok (), bits) := by
  intro hrun
  rw [writeSeveral] at hrun
  obtain ⟨_, hpayloads, -⟩ := Attempt.of_runFrom_lift_bind hrun
  cases ends with
  | nil => exact absurd rfl hends
  | cons stop ends =>
      rw [writePayloads] at hpayloads
      split at hpayloads
      · cases hpayloads
      · rename_i hwrite
        exact h.not_ok hwrite

/-- A list has a partition, and if that is refused, so is the list. -/
theorem writePartitions_refused {nested : Format} {table : TableFormat} {sizing : Sizing}
    {values ends : List Nat} {univ : Nat} {before bits : BitString}
    (h : nested.Refuses params config) :
    (writePartitions nested table sizing values univ ends params config).runFrom before ≠
      (.ok (), bits) := by
  intro hrun
  rw [writePartitions] at hrun
  obtain ⟨_, hcheck, hrun⟩ := Attempt.of_runFrom_lift_bind hrun
  obtain ⟨_, _, -, hrun⟩ := Attempt.of_runFrom_bind hrun
  by_cases hone : ends.length = 1
  · rw [if_pos hone] at hrun
    exact writeSingle_refused h hrun
  · rw [if_neg hone] at hrun
    refine writeSeveral_refused ?_ h hrun
    rintro rfl
    cases hcheck

end Partitioned

namespace Shipped

variable {f : Format} {rate : Nat}

/-- A format of the library keeps its lists, unless it refuses all of them because its
parameters or settings make no sense. -/
theorem faithful_or_refuses (h : Shipped f rate) (params : Params) (config : BuildConfig) :
    (f.Faithful params config ∧ f.GrowsWithin params config rate) ∨
      (¬ (params.validate = .ok () ∧ config.validate = .ok ()) ∧ f.Refuses params config) := by
  induction h with
  | adaptive codec =>
      exact .inl ⟨Adaptive.faithful codec params config, Adaptive.growsWithin codec params config⟩
  | gapBlocks codec =>
      exact .inl ⟨GapBlocks.faithful codec params config, GapBlocks.growsWithin codec params config⟩
  | eliasFano =>
      exact .inl ⟨(EliasFano.faithful params).format config,
        (EliasFano.growsWithin params).format config⟩
  | fixedWidth =>
      exact .inl ⟨(FixedWidth.faithful params).format config,
        (FixedWidth.growsWithin params).format config⟩
  | planned codec =>
      by_cases hconfig : config.validate = .ok ()
      · exact .inl ⟨Partitioned.planned_faithful codec params hconfig,
          Partitioned.planned_growsWithin codec params hconfig⟩
      · exact .inr ⟨fun h => hconfig h.2, ⟨fun hwrite =>
          hconfig (Partitioned.of_write_planned hwrite).2⟩⟩
  | uniform _ small known ih =>
      rcases ih with ⟨hnested, hrate⟩ | ⟨hinvalid, hrefuses⟩
      · by_cases hparams : params.validate = .ok ()
        · obtain ⟨htable, htableRate⟩ := Partitioned.table_faithful known params
          exact .inl ⟨Partitioned.uniform_faithful hparams hnested htable hrate small,
            Partitioned.uniform_growsWithin hparams hnested htable hrate htableRate⟩
        · exact .inr ⟨fun h => hparams h.1, ⟨fun hwrite =>
            hparams (Partitioned.of_write_uniform hwrite).1⟩⟩
      · exact .inr ⟨hinvalid, ⟨fun hwrite =>
          Partitioned.writePartitions_refused hrefuses (Partitioned.of_write_uniform hwrite).2.2⟩⟩

/-- **The formats of the library keep their lists.** -/
theorem faithful (h : Shipped f rate) (hparams : params.validate = .ok ())
    (hconfig : config.validate = .ok ()) : f.Faithful params config := by
  rcases h.faithful_or_refuses params config with ⟨hfaithful, -⟩ | ⟨hinvalid, -⟩
  · exact hfaithful
  · exact absurd ⟨hparams, hconfig⟩ hinvalid

/-- What a list is that was written: ascending, or in order if the format is one of
tables. -/
theorem of_write (h : Shipped f rate) {values : List Nat} {univ : Nat} {before bits : BitString}
    (hwrite : (f.write values univ params config).runFrom before = (.ok (), bits)) :
    Ascending values univ ∨
      (∃ table : TableFormat, f = table.toFormat ∧ table.Faithful params) ∧
        values ≠ [] ∧ values.Pairwise (· ≤ ·) ∧ ∀ v ∈ values, v < univ := by
  cases h with
  | adaptive codec =>
      have hrun : Attempt.runFrom (Adaptive.write codec values univ params config) before =
        (.ok (), bits) := hwrite
      obtain ⟨_, hcheck, -⟩ := Attempt.of_runFrom_lift_bind hrun
      exact .inl (checkMonotone_eq_ok.mp hcheck)
  | gapBlocks codec =>
      have hrun : Attempt.runFrom (GapBlocks.write codec values univ params config) before =
        (.ok (), bits) := hwrite
      obtain ⟨_, hcheck, -⟩ := Attempt.of_runFrom_lift_bind hrun
      exact .inl (checkMonotone_eq_ok.mp hcheck)
  | eliasFano =>
      have hrun : Attempt.runFrom (EliasFano.write values univ params config) before =
        (.ok (), bits) := hwrite
      obtain ⟨_, hcheck, -⟩ := Attempt.of_runFrom_lift_bind hrun
      exact .inr ⟨⟨_, rfl, EliasFano.faithful params⟩, EliasFano.checkValues_eq_ok.mp hcheck⟩
  | fixedWidth =>
      have hrun : Attempt.runFrom (FixedWidth.write values univ params config) before =
        (.ok (), bits) := hwrite
      obtain ⟨_, hcheck, -⟩ := Attempt.of_runFrom_lift_bind hrun
      obtain ⟨hne, hsorted, hbelow, -⟩ := FixedWidth.checkValues_eq_ok.mp hcheck
      exact .inr ⟨⟨_, rfl, FixedWidth.faithful params⟩, hne, hsorted, hbelow⟩
  | planned codec => exact .inl (Partitioned.of_write_planned hwrite).1
  | uniform => exact .inl (Partitioned.of_write_uniform hwrite).2.1

theorem below_of_write (h : Shipped f rate) {values : List Nat} {univ : Nat}
    {before bits : BitString}
    (hwrite : (f.write values univ params config).runFrom before = (.ok (), bits)) :
    ∀ v ∈ values, v < univ := by
  rcases h.of_write hwrite with hvalues | ⟨-, -, -, hbelow⟩
  · exact hvalues.below
  · exact hbelow

/-- **The formats of the library are sound**, whatever the parameters and settings. -/
theorem sound (h : Shipped f rate) (params : Params) (config : BuildConfig) :
    f.Sound params config where
  keeps {values univ} huniv hlength {before bits} hwrite := by
    rcases h.of_write hwrite with hvalues | ⟨⟨table, rfl, htable⟩, hne, hsorted, hbelow⟩
    · rcases h.faithful_or_refuses params config with ⟨hfaithful, -⟩ | ⟨-, hrefuses⟩
      · exact ⟨hfaithful.grows hvalues hwrite, hfaithful.opens hvalues hwrite⟩
      · exact absurd hwrite hrefuses.not_ok
    · have hvalues : NonDecreasing values univ :=
        ⟨hne, hsorted, hbelow, huniv, Nat.le_succ_of_le hlength⟩
      exact ⟨htable.grows hvalues hwrite, htable.opens hvalues hwrite⟩

end Shipped
end Postings
