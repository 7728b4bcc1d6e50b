import Postings.Proofs.Plan.Superblocks

/-!
# The plan of a list

The planner accepts every list that can be stored, with settings that make sense and
a base that is not behind the first value.  Its plan ends where the list ends, and at
every edge of a superblock, and costs what it says.  With exact settings no other
plan that ends at these edges is cheaper; when the list is planned as a whole there
is no such edge but the end, and no plan at all is cheaper.
-/

namespace Postings

open Partitioned (Ends)

variable {codec : Codec} {config : BuildConfig} {values : List Nat} {base univ : Nat}

/-- Where the superblocks of a list end. -/
def superblockEdges (config : BuildConfig) (base : Nat) (values : List Nat) : List Nat :=
  blockEnds 0 (superblocks (superblockSize config values.length) base values)

theorem planPartitions_eq (hconfig : config.validate = .ok ()) (hvalues : Ascending values univ)
    (hbase : base ≤ values.headD 0) :
    planPartitions codec values base univ config =
      .ok (blockPlan codec config (superblockSize config values.length) base values) := by
  rw [planPartitions, hconfig, checkMonotone_eq_ok.mpr hvalues]
  simp only [bind, Except.bind, if_neg (Nat.not_lt.mpr hbase)]
  rfl

/-- **Every list is planned**, by a plan that costs what it says. -/
theorem exists_planPartitions (codec : Codec) (hconfig : config.validate = .ok ())
    (hvalues : Ascending values univ) (hbase : base ≤ values.headD 0) :
    ∃ plan, planPartitions codec values base univ config = .ok plan ∧
      IsPlan ⟨codec, config.fixCost⟩ base values (superblockEdges config base values) plan := by
  obtain ⟨hplan, -⟩ := @blockPlan_spec codec config base values
    (superblockSize config values.length) hvalues.length_pos
  exact ⟨_, planPartitions_eq hconfig hvalues hbase, hplan⟩

/-- A list that is planned as a whole is one superblock. -/
theorem superblockEdges_of_whole (hwhole : (config.eps3 == 0.0) = true) (hpos : 0 < values.length) :
    superblockEdges config base values = [values.length] := by
  have hblocks : superblocks values.length base values = [(base, values)] :=
    superblocks_of_short (by omega) hpos
  rw [superblockEdges, superblockSize, if_pos hwhole, blockEnds_one hblocks]

/-! ## Costs by position -/

/-- The number after the value before a position; the given base at the first. -/
def positionBase (base : Nat) (values : List Nat) (i : Nat) : Nat :=
  if i = 0 then base else values[i - 1]?.getD 0 + 1

/-- The cost of the partition from position `i` up to position `j`: the estimated size of
its values, given the sum of their posting costs and their tight universe, and the
fixed cost. -/
def cutCost (pricing : Pricing) (base : Nat) (values : List Nat) (i j : Nat) : Nat :=
  Adaptive.bitSize
    ((List.range' i (j - i)).map fun k =>
      pricing.codec.postingCost (values[k]?.getD 0) (positionBase base values k)).sum
    (values[j - 1]?.getD 0 - positionBase base values i + 1) (j - i) + pricing.fixCost

theorem runStop_take {i : Nat} (hi : i ≤ values.length) :
    runStop base (values.take i) = positionBase base values i := by
  cases i with
  | zero => rfl
  | succ i =>
      rw [← List.take_append_getElem hi, runStop_append, positionBase,
        if_neg (Nat.succ_ne_zero i), Nat.add_sub_cancel, List.getElem?_eq_getElem hi]
      rfl

theorem runCost_take {i m : Nat} (h : i + m ≤ values.length) :
    runCost codec (positionBase base values i) ((values.drop i).take m) =
      ((List.range' i m).map fun k =>
        codec.postingCost (values[k]?.getD 0) (positionBase base values k)).sum := by
  induction m generalizing i with
  | zero => rfl
  | succ m ih =>
      have hi : i < values.length := by omega
      have hnext : positionBase base values (i + 1) = values[i] + 1 := by
        rw [positionBase, if_neg (Nat.succ_ne_zero i), Nat.add_sub_cancel,
          List.getElem?_eq_getElem hi]
        rfl
      rw [List.drop_eq_getElem_cons hi, List.take_succ_cons, runCost, List.range'_succ,
        List.map_cons, List.sum_cons, ← ih (by omega), hnext, List.getElem?_eq_getElem hi]
      rfl

/-- What the planner adds up is the cost of the partition. -/
theorem edgeCost_eq_cutCost_of_increasing {pricing : Pricing}
    (hincreasing : values.Pairwise (· < ·)) (hbase : base ≤ values.headD 0) {i j : Nat}
    (hij : i < j) (hj : j ≤ values.length) :
    edgeCost pricing base values i j = cutCost pricing base values i j := by
  have hlast : j - 1 < values.length := by omega
  have hstop := runStop_append base (values.take i) ((values.drop i).take (j - i))
  rw [← List.take_add, Nat.add_sub_cancel' (Nat.le_of_lt hij), runStop_take hj,
    runStop_take (Nat.le_trans (Nat.le_of_lt hij) hj)] at hstop
  have hbelow : positionBase base values i ≤ values[j - 1] := by
    rw [positionBase]
    split
    · have hfirst : values.headD 0 = values[0] := by
        rw [List.headD_eq_head?_getD, List.head?_eq_getElem?, List.getElem?_eq_getElem (by omega)]
        rfl
      rw [hfirst] at hbase
      exact hbase.trans (getElem_le_getElem (pairwise_le_of_lt hincreasing) (Nat.zero_le _) hlast)
    · rw [List.getElem?_eq_getElem (by omega)]
      exact List.pairwise_iff_getElem.mp hincreasing (i - 1) (j - 1) (by omega) hlast (by omega)
  have hlength : ((values.drop i).take (j - i)).length = j - i := by
    rw [List.length_take, List.length_drop]
    omega
  rw [edgeCost, partitionCost, cutCost, runStop_take (by omega), ← hstop,
    runCost_take (by omega), hlength, positionBase, if_neg (by omega : ¬ j = 0),
    List.getElem?_eq_getElem hlast, Option.getD_some, Nat.sub_add_comm hbelow]

theorem edgeCost_eq_cutCost {pricing : Pricing} (hvalues : Ascending values univ)
    (hbase : base ≤ values.headD 0) {i j : Nat} (hij : i < j) (hj : j ≤ values.length) :
    edgeCost pricing base values i j = cutCost pricing base values i j :=
  edgeCost_eq_cutCost_of_increasing hvalues.increasing hbase hij hj

/-- **The exact planner is optimal.** -/
theorem planPartitions_optimal (codec : Codec) (hconfig : config.validate = .ok ())
    (hexact : config.isExact = true) (hvalues : Ascending values univ)
    (hbase : base ≤ values.headD 0) :
    ∃ plan, planPartitions codec values base univ config = .ok plan ∧
      Ends values.length plan.ends ∧
      (∀ edge ∈ superblockEdges config base values, edge ∈ plan.ends) ∧
      plan.cost = wayCost (cutCost ⟨codec, config.fixCost⟩ base values) 0 plan.ends ∧
      (∀ ends, Ends values.length ends →
        (∀ edge ∈ superblockEdges config base values, edge ∈ ends) →
        plan.cost ≤ wayCost (cutCost ⟨codec, config.fixCost⟩ base values) 0 ends) ∧
      ((config.eps3 == 0.0) = true → ∀ ends, Ends values.length ends →
        plan.cost ≤ wayCost (cutCost ⟨codec, config.fixCost⟩ base values) 0 ends) := by
  obtain ⟨hplan, hcheapest⟩ := @blockPlan_spec codec config base values
    (superblockSize config values.length) hvalues.length_pos
  have hcosts : ∀ {ends}, Ends values.length ends →
      wayCost (edgeCost ⟨codec, config.fixCost⟩ base values) 0 ends =
        wayCost (cutCost ⟨codec, config.fixCost⟩ base values) 0 ends := fun hends =>
    wayCost_congr hends.increasing_from_zero fun i j hij hj =>
      edgeCost_eq_cutCost hvalues hbase hij (hends.le_of_mem hj)
  refine ⟨_, planPartitions_eq hconfig hvalues hbase, hplan.ends, hplan.passes, ?_,
    fun ends hends hpasses => ?_, fun hwhole ends hends => ?_⟩
  · rw [← hcosts hplan.ends, hplan.cost]
  · rw [← hcosts hends]
    exact hcheapest hexact hends hpasses
  rw [← hcosts hends]
  refine hcheapest hexact hends fun edge hedge => ?_
  have hedges : superblockEdges config base values = [values.length] :=
    superblockEdges_of_whole hwhole hvalues.length_pos
  rw [superblockEdges] at hedges
  rw [hedges, List.mem_singleton] at hedge
  rw [hedge]
  exact List.mem_of_getLast? hends.last

theorem planPartitions_optimal_of_three :
    BuildConfig.validate { eps1 := 0.0, eps2 := 0.0 } = .ok () ∧
    ∃ plan, planPartitions .vbyte [0, 1, 5] 0 8 { eps1 := 0.0, eps2 := 0.0 } = .ok plan ∧
      ∀ ends, Ends 3 ends → plan.cost ≤ wayCost (cutCost ⟨.vbyte, 64⟩ 0 [0, 1, 5]) 0 ends := by
  have hconfig : BuildConfig.validate { eps1 := 0.0, eps2 := 0.0 } = .ok () := by decide +kernel
  have hvalues : Ascending [0, 1, 5] 8 := ⟨by decide, by decide, by decide, by decide⟩
  obtain ⟨plan, hplan, -, -, -, -, hcheapest⟩ := planPartitions_optimal .vbyte hconfig
    (by decide +kernel) hvalues (Nat.le_refl 0)
  exact ⟨hconfig, plan, hplan, hcheapest (by decide +kernel)⟩

end Postings
