import Postings.Proofs.Sequence.Planned

/-!
# Settings that writers do not go by

Some settings choose partitions, others only share work out: how many batches may run at
once and how much work fills one.  What is written does not depend on the latter, as the
planner does not look at them and the formats of partitions and tables look at no settings
at all.
-/

namespace Postings

/-- The same settings with batches of another size, of which another number may run. -/
def BuildConfig.batched (config : BuildConfig) (workers batchWork : Nat) : BuildConfig :=
  { config with workers, batchWork }

variable {config other : BuildConfig} {workers batchWork : Nat}

/-- Settings that make sense do so with any batches. -/
theorem BuildConfig.validate_batched (h : config.validate = .ok ()) (hbatch : 0 < batchWork) :
    (config.batched workers batchWork).validate = .ok () := by
  obtain ⟨hfirst, hsecond, hthird, hfactors, -⟩ := validate_eq_ok.mp h
  exact validate_eq_ok.mpr ⟨hfirst, hsecond, hthird, hfactors, hbatch⟩

/-- The planner does not look at batches. -/
theorem planPartitions_batched (codec : Codec) (values : List Nat) (base univ : Nat)
    (hconfig : config.validate = .ok ()) (hbatch : 0 < batchWork) :
    planPartitions codec values base univ (config.batched workers batchWork) =
      planPartitions codec values base univ config := by
  rw [planPartitions, planPartitions, BuildConfig.validate_batched hconfig hbatch, hconfig]
  rfl

namespace Partitioned

variable {nested : Format} {table : TableFormat} {params : Params}

/-- Payloads are the same if the format of partitions writes the same. -/
theorem writePayloads_congr
    (hnested : ∀ values univ, nested.write values univ params config =
      nested.write values univ params other)
    (bits : BitString) (start base : Nat) (values ends : List Nat) :
    writePayloads nested params config bits start base values ends =
      writePayloads nested params other bits start base values ends := by
  induction ends generalizing bits start base values with
  | nil => rfl
  | cons stop ends ih =>
      rw [writePayloads, writePayloads]
      simp only [hnested, ih]

/-- Partitions are the same if their format and that of the tables write the same. -/
theorem writePartitions_congr
    (hnested : ∀ values univ, nested.write values univ params config =
      nested.write values univ params other)
    (htable : ∀ values univ, table.write values univ params config =
      table.write values univ params other)
    (sizing : Sizing) (values : List Nat) (univ : Nat) (ends : List Nat) :
    writePartitions nested table sizing values univ ends params config =
      writePartitions nested table sizing values univ ends params other := by
  have hsingle : writeSingle nested values univ params config =
      writeSingle nested values univ params other := by
    rw [writeSingle, writeSingle]
    simp only [hnested]
  have hseveral : writeSeveral nested table sizing values univ ends params config =
      writeSeveral nested table sizing values univ ends params other := by
    rw [writeSeveral, writeSeveral]
    simp only [writePayloads_congr hnested, htable]
    rfl
  rw [writePartitions, writePartitions, hsingle, hseveral]

/-- **Planned partitions do not depend on batches.** -/
theorem planned_write_batched (codec : Codec) (values : List Nat) (univ : Nat) (params : Params)
    (hconfig : config.validate = .ok ()) (hbatch : 0 < batchWork) :
    (planned codec).write values univ params (config.batched workers batchWork) =
      (planned codec).write values univ params config := by
  change (do
    checkMonotone values univ
    let plan ← planPartitions codec values (values.headD 0) univ (config.batched workers batchWork)
    writePartitions (Adaptive.format codec) EliasFano.format .stored values univ plan.ends params
      (config.batched workers batchWork) : Writing Unit) = _
  simp only [planPartitions_batched codec values _ univ hconfig hbatch]
  refine congrArg (liftM (checkMonotone values univ) >>= ·) (funext fun _ => ?_)
  refine congrArg (liftM _ >>= ·) (funext fun plan => ?_)
  exact @writePartitions_congr (config.batched workers batchWork) config (Adaptive.format codec)
    EliasFano.format params (fun _ _ => rfl) (fun _ _ => rfl) .stored values univ plan.ends

end Partitioned
end Postings
