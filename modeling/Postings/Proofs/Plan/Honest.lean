import Postings.Proofs.Plan.Moments

/-!
# Plans between two bounds

A plan costs no more than the superblocks do when each is one partition: that is the plan
the planner begins with.  It costs no less than the plan of the exact planner, whether that
one has the same superblocks or none.  What the windows know while all this is planned is
sound, in every superblock.
-/

namespace Postings

open Partitioned (Ends)

variable {codec : Codec} {config : BuildConfig} {base univ : Nat} {values : List Nat}

/-! ## Exact settings -/

namespace BuildConfig

/-- The same settings for the exact planner. -/
def exact (config : BuildConfig) : BuildConfig := { config with eps1 := 0.0, eps2 := 0.0 }

/-- The same settings without superblocks. -/
def whole (config : BuildConfig) : BuildConfig := { config with eps3 := 0.0 }

theorem isExact_exact (config : BuildConfig) : config.exact.isExact = true :=
  show ((0.0 : Float) == 0.0 && (0.0 : Float) == 0.0) = true by decide +kernel

theorem whole_eps3 (config : BuildConfig) : (config.whole.eps3 == 0.0) = true :=
  show ((0.0 : Float) == 0.0) = true by decide +kernel

theorem validate_exact (h : config.validate = .ok ()) : config.exact.validate = .ok () := by
  obtain ⟨-, -, hthird, -, hbatch⟩ := validate_eq_ok.mp h
  exact validate_eq_ok.mpr ⟨show checkFactor "eps1" 0.0 = _ by decide +kernel,
    show checkFactor "eps2" 0.0 = _ by decide +kernel, hthird,
    show ((0.0 : Float) == 0.0 && decide ((0.0 : Float) > 0.0)) = false by decide +kernel, hbatch⟩

theorem validate_whole (h : config.validate = .ok ()) : config.whole.validate = .ok () := by
  obtain ⟨hfirst, hsecond, -, hfactors, hbatch⟩ := validate_eq_ok.mp h
  exact validate_eq_ok.mpr ⟨hfirst, hsecond, show checkFactor "eps3" 0.0 = _ by decide +kernel,
    hfactors, hbatch⟩

end BuildConfig

/-! ## The superblocks as partitions -/

/-- A superblock is not empty, and its values rise from its base on. -/
theorem superblocks_rising (size : Nat) (hpos : 0 < values.length) (h : Rising base values) :
    ∀ block ∈ superblocks size base values, 0 < block.2.length ∧ Rising block.1 block.2 := by
  induction base, values, hpos using superblocks_induct size with
  | one base values hpos _ hone =>
      intro block hblock
      rw [hone, List.mem_singleton] at hblock
      rw [hblock]
      exact ⟨hpos, h⟩
  | many base block rest _ _ hlength hsize _ hmany ih =>
      obtain ⟨hblock, hrest⟩ := (rising_append _ _ _).mp h
      rw [hmany]
      exact List.forall_mem_cons.mpr ⟨⟨by rwa [hlength], hblock⟩, ih hrest⟩

theorem planBlock_le_single (codec : Codec) (config : BuildConfig) (hpos : 0 < values.length)
    (h : Rising base values) :
    (planBlock codec config base values).cost ≤
      edgeCost ⟨codec, config.fixCost⟩ base values 0 values.length := by
  rw [planBlock]
  split
  · obtain ⟨-, -, hcheapest⟩ := @planExact_spec ⟨codec, config.fixCost⟩ base values hpos
    exact hcheapest (.singleton hpos)
  · have hbase : base ≤ values.headD 0 := by
      obtain ⟨first, others, rfl⟩ := List.exists_cons_of_length_pos hpos
      exact h.1
    obtain ⟨-, -, -, -, hsingle⟩ := @planWindows_examined ⟨codec, config.fixCost⟩ base values _ hpos
      h.increasing hbase (windowBounds_increasing config _ _).1
    exact hsingle

/-- The plans of the superblocks cost no more than the superblocks. -/
theorem blockPlan_le_blocks (codec : Codec) (config : BuildConfig) (size : Nat)
    (hpos : 0 < values.length) (h : Rising base values) :
    (blockPlan codec config size base values).cost ≤
      wayCost (edgeCost ⟨codec, config.fixCost⟩ base values) 0
        (blockEnds 0 (superblocks size base values)) := by
  induction base, values, hpos using superblocks_induct size with
  | one base values hpos _ hone =>
      rw [blockPlan_one hone, blockEnds_one hone]
      exact planBlock_le_single codec config hpos h
  | many base block rest _ hrest hlength hsize _ hmany ih =>
      have hblock : 0 < block.length := by rwa [hlength]
      obtain ⟨hrising, hothers⟩ := (rising_append _ _ _).mp h
      have hjoined := @wayCost_join ⟨codec, config.fixCost⟩ base block rest [block.length]
        (blockEnds 0 (superblocks size (runStop base block) rest)) (.singleton hblock)
      rw [blockPlan_many hblock hmany, blockEnds_many hmany, ← List.singleton_append, hjoined]
      exact Nat.add_le_add (planBlock_le_single codec config hblock hrising) (ih hothers)

/-- The edges of superblocks are the ends of partitions themselves. -/
theorem superblockEdges_ends (config : BuildConfig) (base : Nat) (hpos : 0 < values.length) :
    Ends values.length (superblockEdges config base values) := by
  rw [superblockEdges]
  generalize superblockSize config values.length = size
  induction base, values, hpos using superblocks_induct size with
  | one base values hpos _ hone =>
      rw [blockEnds_one hone]
      exact .singleton hpos
  | many base block rest _ _ hlength hsize _ hmany ih =>
      rw [blockEnds_many hmany, List.length_append, ← List.singleton_append]
      exact ends_join (.singleton (by rwa [hlength])) ih

/-! ## The plan of a list -/

theorem wayCost_edgeCost (pricing : Pricing) (hvalues : Ascending values univ)
    (hbase : base ≤ values.headD 0) {ends : List Nat} (hends : Ends values.length ends) :
    wayCost (edgeCost pricing base values) 0 ends = wayCost (cutCost pricing base values) 0 ends :=
  wayCost_congr hends.increasing_from_zero fun _ _ hij hj =>
    edgeCost_eq_cutCost hvalues hbase hij (hends.le_of_mem hj)

/-- The exact plan, with the superblocks of the settings. -/
theorem exists_planPartitions_exact (codec : Codec) (hconfig : config.validate = .ok ())
    (hexact : config.isExact = true) (hvalues : Ascending values univ)
    (hbase : base ≤ values.headD 0) :
    ∃ plan, planPartitions codec values base univ config = .ok plan ∧
      IsPlan ⟨codec, config.fixCost⟩ base values (superblockEdges config base values) plan ∧
      Cheapest ⟨codec, config.fixCost⟩ base values (superblockEdges config base values) plan := by
  obtain ⟨hplan, hcheapest⟩ := @blockPlan_spec codec config base values
    (superblockSize config values.length) hvalues.length_pos
  exact ⟨_, planPartitions_eq hconfig hvalues hbase, hplan, hcheapest hexact⟩

/-- No plan at all is cheaper than the exact one without superblocks. -/
theorem exists_planPartitions_whole (codec : Codec) (hconfig : config.validate = .ok ())
    (hexact : config.isExact = true) (hvalues : Ascending values univ)
    (hbase : base ≤ values.headD 0) :
    ∃ plan, planPartitions codec values base univ config.whole = .ok plan ∧
      IsPlan ⟨codec, config.fixCost⟩ base values [values.length] plan ∧
      ∀ {ends}, Ends values.length ends →
        plan.cost ≤ wayCost (edgeCost ⟨codec, config.fixCost⟩ base values) 0 ends := by
  obtain ⟨plan, hplan, his, hcheapest⟩ := exists_planPartitions_exact codec
    (BuildConfig.validate_whole hconfig) hexact hvalues hbase
  rw [superblockEdges_of_whole config.whole_eps3 hvalues.length_pos] at his hcheapest
  refine ⟨plan, hplan, his, fun hends => hcheapest hends fun edge hedge => ?_⟩
  rw [List.mem_singleton.mp hedge]
  exact List.mem_of_getLast? hends.last

/-- **Plans are honest.**  Whatever the settings, a list is cut into partitions that end at
every edge of a superblock; the plan costs what they cost, no more than the superblocks as
partitions and no less than the exact plan; and while it was made, every window was sound. -/
theorem planPartitions_honest (codec : Codec) (hconfig : config.validate = .ok ())
    (hvalues : Ascending values univ) (hbase : base ≤ values.headD 0) :
    ∃ plan, planPartitions codec values base univ config = .ok plan ∧
      Ends values.length plan.ends ∧
      (∀ edge ∈ superblockEdges config base values, edge ∈ plan.ends) ∧
      plan.cost = wayCost (cutCost ⟨codec, config.fixCost⟩ base values) 0 plan.ends ∧
      plan.cost ≤ wayCost (cutCost ⟨codec, config.fixCost⟩ base values) 0
        (superblockEdges config base values) ∧
      (∃ best, planPartitions codec values base univ config.exact = .ok best ∧
        best.cost ≤ plan.cost) ∧
      (∃ best, planPartitions codec values base univ config.exact.whole = .ok best ∧
        best.cost ≤ plan.cost ∧
        ∀ ends, Ends values.length ends →
          best.cost ≤ wayCost (cutCost ⟨codec, config.fixCost⟩ base values) 0 ends) ∧
      ∀ block ∈ superblocks (superblockSize config values.length) base values,
        ∀ m ∈ planMoments codec config block.1 block.2, m.Sound codec block.1 block.2 := by
  have hpos := hvalues.length_pos
  have hrising := rising_of_headD hvalues.increasing hbase
  obtain ⟨hplan, -⟩ := @blockPlan_spec codec config base values
    (superblockSize config values.length) hpos
  have hexact := BuildConfig.validate_exact hconfig
  obtain ⟨best, hbest, -, hcheapest⟩ :=
    exists_planPartitions_exact codec hexact config.isExact_exact hvalues hbase
  obtain ⟨whole, hwhole, -, hoptimal⟩ :=
    exists_planPartitions_whole codec hexact config.isExact_exact hvalues hbase
  refine ⟨_, planPartitions_eq hconfig hvalues hbase, hplan.ends, hplan.passes, ?_, ?_,
    ⟨best, hbest, ?_⟩, ⟨whole, hwhole, ?_, fun ends hends => ?_⟩, fun block hblock m hm => ?_⟩
  · rw [← wayCost_edgeCost _ hvalues hbase hplan.ends, hplan.cost]
  · rw [← wayCost_edgeCost _ hvalues hbase (superblockEdges_ends config base hpos)]
    exact blockPlan_le_blocks codec config _ hpos hrising
  · rw [← hplan.cost]
    exact hcheapest hplan.ends hplan.passes
  · rw [← hplan.cost]
    exact hoptimal hplan.ends
  · rw [← wayCost_edgeCost _ hvalues hbase hends]
    exact hoptimal hends
  · obtain ⟨hlength, hblock⟩ := superblocks_rising _ hpos hrising block hblock
    obtain ⟨front, part, ahead, hover⟩ := planMoments_over config hlength m hm
    exact hover.sound hblock

theorem planPartitions_honest_of_four :
    BuildConfig.validate { eps3 := 32.0 } = .ok () ∧ Ascending [0, 1, 5, 9] 16 ∧
    ∃ plan, planPartitions .vbyte [0, 1, 5, 9] 0 16 { eps3 := 32.0 } = .ok plan ∧
      2 ∈ plan.ends ∧ Ends 4 plan.ends ∧
      plan.cost = wayCost (cutCost ⟨.vbyte, 64⟩ 0 [0, 1, 5, 9]) 0 plan.ends ∧
      plan.cost ≤ wayCost (cutCost ⟨.vbyte, 64⟩ 0 [0, 1, 5, 9]) 0 [2, 4] ∧
      ∀ m ∈ planMoments .vbyte { eps3 := 32.0 } 2 [5, 9], m.Sound .vbyte 2 [5, 9] := by
  have hconfig : BuildConfig.validate { eps3 := 32.0 } = .ok () := by decide +kernel
  have hvalues : Ascending [0, 1, 5, 9] 16 := ⟨by decide, by decide, by decide, by decide⟩
  have hedges : superblockEdges { eps3 := 32.0 } 0 [0, 1, 5, 9] = [2, 4] := by decide +kernel
  obtain ⟨plan, hplan, hends, hpasses, hcost, hsingle, -, -, hmoments⟩ :=
    planPartitions_honest .vbyte hconfig hvalues (Nat.le_refl 0)
  rw [hedges] at hpasses hsingle
  exact ⟨hconfig, hvalues, plan, hplan, hpasses 2 (.head _), hends, hcost, hsingle,
    hmoments (2, [5, 9]) (by decide +kernel)⟩

end Postings
