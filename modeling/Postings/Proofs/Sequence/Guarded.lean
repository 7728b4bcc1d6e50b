import Postings.Proofs.Sequence.Accepted

/-!
# What is refused leaves nothing behind

A format is *guarded* by a check when the check alone decides.  What passes is written
behind the bits that were there; what does not pass is refused for the reason that the
check gives, before the first bit of it is written.  So there is no refusal late in a
writer: partitions, tables, gaps and sums of gaps of a list that passed its checks are all
in order, and the planner refuses nothing but settings that make no sense.

Uniform partitions check the parameters before the list, planned partitions the list before
the settings; the other formats check the list and nothing else.
-/

namespace Postings

/-- What begins with a check that fails is refused, and nothing has happened. -/
theorem Attempt.runFrom_of_check_error {σ α : Type} {check : Except Error Unit} {e : Error}
    (h : check = .error e) (rest : Unit → Attempt σ α) (s : σ) :
    runFrom (liftM check >>= rest) s = (.error e, s) := by
  rw [runFrom_bind, runFrom_lift, h]

namespace Format

/-- A writer goes by a check that it makes before it writes. -/
structure GuardedBy (f : Format) (params : Params) (config : BuildConfig)
    (check : (values : List Nat) → (univ : Nat) → Except Error Unit) : Prop where
  appends : ∀ {values univ}, check values univ = .ok () → ∀ before, ∃ bits,
    (f.write values univ params config).runFrom before = (.ok (), bits) ∧ bits.Extends before
  refuses : ∀ {values univ e}, check values univ = .error e → ∀ before,
    (f.write values univ params config).runFrom before = (.error e, before)

/-- A writer accepts the lists of a kind and no others.  It appends what it accepts, and
what it refuses leaves the bits as they were. -/
structure AcceptsExactly (f : Format) (params : Params) (config : BuildConfig)
    (valid : (values : List Nat) → (univ : Nat) → Prop) : Prop where
  accepts_iff : ∀ values univ before,
    (∃ bits, (f.write values univ params config).runFrom before = (.ok (), bits)) ↔
      valid values univ
  grows : ∀ {values univ before bits},
    (f.write values univ params config).runFrom before = (.ok (), bits) → bits.Extends before
  unchanged : ∀ {values univ before e bits},
    (f.write values univ params config).runFrom before = (.error e, bits) → bits = before

variable {f : Format} {params : Params} {config : BuildConfig}
  {check : (values : List Nat) → (univ : Nat) → Except Error Unit}

/-- A format that keeps the lists it is given is guarded by the check that picks them. -/
theorem GuardedBy.of_faithful
    (hpass : ∀ {values univ}, check values univ = .ok () →
      f.Faithful params config ∧ Ascending values univ)
    (hrefuse : ∀ {values univ e}, check values univ = .error e → ∀ before,
      (f.write values univ params config).runFrom before = (.error e, before)) :
    f.GuardedBy params config check where
  appends hcheck before := by
    obtain ⟨hfaithful, hvalues⟩ := hpass hcheck
    obtain ⟨bits, hwrite⟩ := hfaithful.accepts hvalues before
    exact ⟨bits, hwrite, hfaithful.grows hvalues hwrite⟩
  refuses := hrefuse

/-- There are two ways for a guarded write to end. -/
theorem GuardedBy.outcome (h : f.GuardedBy params config check) (values : List Nat) (univ : Nat)
    (before : BitString) :
    (check values univ = .ok () ∧ ∃ bits,
      (f.write values univ params config).runFrom before = (.ok (), bits) ∧ bits.Extends before) ∨
    ∃ e, check values univ = .error e ∧
      (f.write values univ params config).runFrom before = (.error e, before) := by
  cases hcheck : check values univ with
  | ok => exact .inl ⟨rfl, h.appends hcheck before⟩
  | error e => exact .inr ⟨e, rfl, h.refuses hcheck before⟩

/-- The lists that a guarded writer accepts are those that pass. -/
theorem GuardedBy.acceptsExactly {valid : (values : List Nat) → (univ : Nat) → Prop}
    (h : f.GuardedBy params config check)
    (hvalid : ∀ {values univ}, check values univ = .ok () ↔ valid values univ) :
    f.AcceptsExactly params config valid where
  accepts_iff values univ before := by
    rw [← hvalid]
    rcases h.outcome values univ before with ⟨hcheck, bits, hwrite, -⟩ | ⟨e, hcheck, hwrite⟩
    · exact iff_of_true ⟨bits, hwrite⟩ hcheck
    · rw [hwrite, hcheck]
      exact iff_of_false (fun ⟨_, hrun⟩ => by cases hrun) fun hpass => by cases hpass
  grows {values univ before bits} hwrite := by
    rcases h.outcome values univ before with ⟨-, written, hwritten, hgrown⟩ | ⟨e, -, hrefused⟩
    · rw [hwritten] at hwrite
      cases hwrite
      exact hgrown
    · rw [hrefused] at hwrite
      cases hwrite
  unchanged {values univ before e bits} hwrite := by
    rcases h.outcome values univ before with ⟨-, written, hwritten, -⟩ | ⟨e', -, hrefused⟩
    · rw [hwritten] at hwrite
      cases hwrite
    · rw [hrefused] at hwrite
      cases hwrite
      rfl

/-- Every other list is refused. -/
theorem AcceptsExactly.exists_refusal {valid : (values : List Nat) → (univ : Nat) → Prop}
    (h : f.AcceptsExactly params config valid) {values : List Nat} {univ : Nat}
    (hinvalid : ¬ valid values univ) (before : BitString) :
    ∃ e, (f.write values univ params config).runFrom before = (.error e, before) := by
  cases hrun : (f.write values univ params config).runFrom before with
  | mk answer bits =>
      cases answer with
      | ok => exact absurd ((h.accepts_iff values univ before).mp ⟨bits, hrun⟩) hinvalid
      | error e => exact ⟨e, by rw [h.unchanged hrun]⟩

end Format

variable {params : Params} {config : BuildConfig}

/-! ## Formats of one piece -/

theorem GapBlocks.guardedBy (codec : Codec) (params : Params) (config : BuildConfig) :
    (format codec).GuardedBy params config checkMonotone :=
  .of_faithful (fun hcheck => ⟨faithful codec params config, checkMonotone_eq_ok.mp hcheck⟩)
    fun hcheck before => Attempt.runFrom_of_check_error hcheck _ before

theorem Adaptive.guardedBy (codec : Codec) (params : Params) (config : BuildConfig) :
    (format codec).GuardedBy params config checkMonotone :=
  .of_faithful (fun hcheck => ⟨faithful codec params config, checkMonotone_eq_ok.mp hcheck⟩)
    fun hcheck before => Attempt.runFrom_of_check_error hcheck _ before

/-! ## Partitions -/

namespace Partitioned

/-- The checks of planned partitions: the list, then the settings. -/
def checkPlanned (config : BuildConfig) (values : List Nat) (univ : Nat) : Except Error Unit := do
  checkMonotone values univ
  config.validate

/-- The checks of uniform partitions: the parameters, then the list. -/
def checkUniform (params : Params) (values : List Nat) (univ : Nat) : Except Error Unit := do
  params.validate
  checkMonotone values univ

theorem checkPlanned_eq_ok {values : List Nat} {univ : Nat} :
    checkPlanned config values univ = .ok () ↔
      Ascending values univ ∧ config.validate = .ok () := by
  rw [checkPlanned, check_bind_eq_ok, checkMonotone_eq_ok]

theorem checkUniform_eq_ok {values : List Nat} {univ : Nat} :
    checkUniform params values univ = .ok () ↔
      Ascending values univ ∧ params.validate = .ok () := by
  rw [checkUniform, check_bind_eq_ok, checkMonotone_eq_ok, and_comm]

/-- Settings that make no sense are refused by the planner, and it plans first. -/
theorem planned_refuses {codec : Codec} {values : List Nat} {univ : Nat} {e : Error}
    (h : checkPlanned config values univ = .error e) (before : BitString) :
    ((planned codec).write values univ params config).runFrom before = (.error e, before) := by
  change Attempt.runFrom (do
    checkMonotone values univ
    let plan ← planPartitions codec values (values.headD 0) univ config
    writePartitions (Adaptive.format codec) EliasFano.format .stored values univ plan.ends params
      config : Writing Unit) before = _
  cases hlist : checkMonotone values univ with
  | error e' =>
      rw [checkPlanned, hlist] at h
      obtain rfl : e' = e := Except.error.inj h
      rfl
  | ok =>
      rw [checkPlanned, hlist] at h
      have hplan : planPartitions codec values (values.headD 0) univ config = .error e := by
        rw [planPartitions, show config.validate = .error e from h]
        rfl
      rw [hplan]
      rfl

theorem planned_guardedBy (codec : Codec) (params : Params) (config : BuildConfig) :
    (planned codec).GuardedBy params config (checkPlanned config) := by
  refine .of_faithful (fun hcheck => ?_) planned_refuses
  obtain ⟨hvalues, hconfig⟩ := checkPlanned_eq_ok.mp hcheck
  exact ⟨planned_faithful codec params hconfig, hvalues⟩

theorem uniform_refuses {nested : Format} {table : TableFormat} {values : List Nat} {univ : Nat}
    {e : Error} (h : checkUniform params values univ = .error e) (before : BitString) :
    ((uniform nested table).write values univ params config).runFrom before =
      (.error e, before) := by
  change Attempt.runFrom (do
    params.validate
    checkMonotone values univ
    writePartitions nested table .uniform values univ
      (uniformEnds params.partitionLog values.length) params config : Writing Unit) before = _
  cases hparams : params.validate with
  | error e' =>
      rw [checkUniform, hparams] at h
      obtain rfl : e' = e := Except.error.inj h
      rfl
  | ok =>
      rw [checkUniform, hparams] at h
      have hlist : checkMonotone values univ = .error e := h
      rw [hlist]
      rfl

/-- A nested format that keeps its lists refuses no partition. -/
theorem uniform_guardedBy {nested : Format} {table : TableFormat} {rate : Nat}
    (hnested : nested.Faithful params config) (hrate : nested.GrowsWithin params config rate)
    (hsmall : rate ≤ 2 ^ 31) (htable : table.Faithful params) :
    (uniform nested table).GuardedBy params config (checkUniform params) := by
  refine .of_faithful (fun hcheck => ?_) uniform_refuses
  obtain ⟨hvalues, hparams⟩ := checkUniform_eq_ok.mp hcheck
  exact ⟨uniform_faithful hparams hnested htable hrate hsmall, hvalues⟩

end Partitioned

/-! ## Writers -/

open Partitioned

/-- **Writers accept exactly the valid lists**, and what they refuse leaves nothing behind. -/
theorem writers_accept_exactly (codec : Codec) (params : Params) (config : BuildConfig) :
    (GapBlocks.format codec).AcceptsExactly params config Ascending ∧
    (Adaptive.format codec).AcceptsExactly params config Ascending ∧
    (planned codec).AcceptsExactly params config
      (fun values univ => Ascending values univ ∧ config.validate = .ok ()) ∧
    ∀ nested ∈ [Adaptive.format codec, GapBlocks.format codec, EliasFano.format.toFormat],
      ∀ table ∈ [EliasFano.format, FixedWidth.format],
        (uniform nested table).AcceptsExactly params config
          (fun values univ => Ascending values univ ∧ params.validate = .ok ()) := by
  refine ⟨(GapBlocks.guardedBy codec params config).acceptsExactly checkMonotone_eq_ok,
    (Adaptive.guardedBy codec params config).acceptsExactly checkMonotone_eq_ok,
    (planned_guardedBy codec params config).acceptsExactly checkPlanned_eq_ok, ?_⟩
  intro nested hnested table htable
  have hkept : ∃ rate, nested.Faithful params config ∧ nested.GrowsWithin params config rate ∧
      rate ≤ 2 ^ 31 := by
    rcases List.mem_cons.mp hnested with rfl | hnested
    · exact ⟨23, Adaptive.faithful codec params config, Adaptive.growsWithin codec params config,
        by decide⟩
    rcases List.mem_cons.mp hnested with rfl | hnested
    · exact ⟨79, GapBlocks.faithful codec params config, GapBlocks.growsWithin codec params config,
        by decide⟩
    obtain rfl := List.mem_singleton.mp hnested
    exact ⟨260, (EliasFano.faithful params).format config,
      (EliasFano.growsWithin params).format config, by decide⟩
  have hknown : table = EliasFano.format ∨ table = FixedWidth.format := by
    rcases List.mem_cons.mp htable with rfl | htable
    · exact .inl rfl
    · exact .inr (List.mem_singleton.mp htable)
  obtain ⟨rate, hfaithful, hrate, hsmall⟩ := hkept
  exact (uniform_guardedBy hfaithful hrate hsmall (table_faithful hknown params).1).acceptsExactly
    checkUniform_eq_ok

theorem writers_accept_exactly_of_three :
    let nested := EliasFano.format.toFormat
    let before := BitString.empty.appendBits 5 3
    nested ∈ [Adaptive.format .vbyte, GapBlocks.format .vbyte, EliasFano.format.toFormat] ∧
    FixedWidth.format ∈ [EliasFano.format, FixedWidth.format] ∧
    (∃ bits, ((uniform nested FixedWidth.format).write [1, 4, 6] 9 { partitionLog := 1 }
      {}).runFrom before = (.ok (), bits) ∧ bits.Extends before) ∧
    ∃ e, ((uniform nested FixedWidth.format).write [1, 6, 4] 9 { partitionLog := 1 }
      {}).runFrom before = (.error e, before) := by
  intro nested before
  have hnested : nested ∈ [Adaptive.format .vbyte, GapBlocks.format .vbyte,
      EliasFano.format.toFormat] :=
    List.mem_cons_of_mem _ (List.mem_cons_of_mem _ List.mem_cons_self)
  have htable : FixedWidth.format ∈ [EliasFano.format, FixedWidth.format] :=
    List.mem_cons_of_mem _ List.mem_cons_self
  obtain ⟨-, -, -, huniform⟩ := writers_accept_exactly .vbyte { partitionLog := 1 } {}
  have hwriter := huniform nested hnested _ htable
  refine ⟨hnested, htable, ?_, ?_⟩
  · obtain ⟨bits, hwrite⟩ := (hwriter.accepts_iff [1, 4, 6] 9 before).mpr
      ⟨⟨by decide, by decide, by decide, by decide⟩, by decide +kernel⟩
    exact ⟨bits, hwrite, hwriter.grows hwrite⟩
  · exact hwriter.exists_refusal (fun hvalid => absurd hvalid.1.increasing (by decide)) before

end Postings
