import Postings.Decimal
import Postings.Error

/-!
# Layout parameters and build settings

`Params` shape the stored form of a sequence; whoever reads a sequence must use
those it was written with.  `BuildConfig` steers how a sequence is encoded, and a
reader never needs it.
-/

namespace Postings

/-! ## Layout parameters -/

/-- Parameters of the stored form, all of them logarithms in base two. -/
structure Params where
  /-- A uniform partition holds `2 ^ partitionLog` values. -/
  partitionLog : Nat := 7
  /-- Elias-Fano keeps a pointer for every `2 ^ bucketLog` buckets. -/
  bucketLog : Nat := 9
  /-- Elias-Fano keeps a pointer for every `2 ^ elementLog` elements. -/
  elementLog : Nat := 8
  deriving DecidableEq, Repr

/-- Every parameter is from 1 to 31. -/
def Params.validate (params : Params) : Except Error Unit := do
  let check (name : String) (value : Nat) :=
    checkArgument name ("(1..=31).contains(&self." ++ name ++ ")") (1 ≤ value && value ≤ 31)
  check "log_partition_size" params.partitionLog
  check "ef_log_sampling0" params.bucketLog
  check "ef_log_sampling1" params.elementLog

/-! ## Build settings -/

/-- Settings of the planner and of the construction queue. -/
structure BuildConfig where
  /-- What a partition costs beside its payload, in bits. -/
  fixCost : Nat := 64
  /-- Windows stop growing at `1 / eps1` of the lowest cost; zero sets no limit. -/
  eps1 : Float := 0.03
  /-- Window bounds grow by the factor `1 + eps2`. -/
  eps2 : Float := 0.3
  /-- A superblock holds `fixCost / eps3` values; zero plans a list as a whole. -/
  eps3 : Float := 0.0
  /-- How many batches of jobs may run at once; zero runs every job on its own. -/
  workers : Nat := 1
  /-- The expected work that fills a batch. -/
  batchWork : Nat := 1048576

namespace BuildConfig

/-- The planner looks at every partition when both factors are zero. -/
def isExact (config : BuildConfig) : Bool :=
  config.eps1 == 0.0 && config.eps2 == 0.0

/-- A factor must be a finite number and not below zero. -/
def checkFactor (name : String) (eps : Float) : Except Error Unit :=
  if !eps.isFinite || eps < 0.0 then
    .error (.invalidArgument name (decimalText eps ++ " is not a finite non-negative number"))
  else .ok ()

/-- The settings must make sense together. -/
def validate (config : BuildConfig) : Except Error Unit := do
  checkFactor "eps1" config.eps1
  checkFactor "eps2" config.eps2
  checkFactor "eps3" config.eps3
  if config.eps2 == 0.0 && config.eps1 > 0.0 then
    throw (.invalidArgument "eps2" "must be positive unless eps1 is zero as well")
  checkArgument "work_per_thread" "self.work_per_thread > 0" (0 < config.batchWork)

/-- Settings make sense when each of them does and windows that are limited also grow. -/
theorem validate_eq_ok {config : BuildConfig} :
    config.validate = .ok () ↔
      checkFactor "eps1" config.eps1 = .ok () ∧ checkFactor "eps2" config.eps2 = .ok () ∧
      checkFactor "eps3" config.eps3 = .ok () ∧
      (config.eps2 == 0.0 && config.eps1 > 0.0) = false ∧ 0 < config.batchWork := by
  rw [validate, check_bind_eq_ok, check_bind_eq_ok, check_bind_eq_ok]
  by_cases hfactors : (config.eps2 == 0.0 && decide (config.eps1 > 0.0)) = true
  · rw [if_pos hfactors, hfactors]
    refine iff_of_false ?_ fun h => Bool.noConfusion h.2.2.2.1
    rintro ⟨-, -, -, h⟩
    cases h
  · rw [if_neg hfactors, Bool.eq_false_iff.mpr hfactors]
    simp only [checkArgument_eq_ok, decide_eq_true_iff, true_and]

end BuildConfig
end Postings
