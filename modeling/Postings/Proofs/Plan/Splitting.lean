import Postings.Proofs.Plan.Honest

/-!
# What superblocks cost

Superblocks are pieces of a list of the same size, but for the last, which takes what is
left over.  The exact plan without superblocks can be cut at their edges, and each cut
costs the fixed cost once more, a tag, and what the rounding of sizes loses: so planning
by superblocks costs more than planning a list as a whole, but no more than these cuts.
Several edges may lie in one partition; they are cut one after the other.
-/

namespace Postings

open Partitioned (Ends)

variable {config : BuildConfig} {base univ n size : Nat} {values : List Nat}

/-! ## The pieces -/

/-- Pieces of a list, in order: none is empty, and all have `size` values but for the last,
to which less than another `size` is added.  A list that is too short is one piece. -/
structure Pieces (size : Nat) (values : List Nat) (pieces : List (List Nat)) : Prop where
  flatten_eq : pieces.flatten = values
  ne_nil : ∀ piece ∈ pieces, piece ≠ []
  length_eq : ∀ piece ∈ pieces.dropLast, piece.length = size
  last : ∃ piece, pieces.getLast? = some piece ∧ piece.length < 2 * size ∧
    (size ≤ values.length → size ≤ piece.length)

theorem superblockSize_pos (config : BuildConfig) (hn : 0 < n) : 0 < superblockSize config n := by
  rw [superblockSize]
  split
  · exact hn
  · exact Nat.lt_of_lt_of_le Nat.one_pos (Nat.le_max_right _ _)

theorem superblocks_pieces (hsize : 0 < size) (hpos : 0 < values.length) :
    Pieces size values ((superblocks size base values).map (·.2)) := by
  induction base, values, hpos using superblocks_induct size with
  | one base values hpos hshort hone =>
      rw [hone]
      refine ⟨List.append_nil values, fun piece hpiece => ?_,
        fun _ hnone => absurd hnone List.not_mem_nil, values, rfl, by omega, id⟩
      rw [List.mem_singleton.mp hpiece]
      exact List.ne_nil_of_length_pos hpos
  | many base block rest _ hrest hlength _ hle hmany ih =>
      obtain ⟨hflatten, hne, heven, piece, hpiece, hbelow, habove⟩ := ih
      rw [hmany, List.map_cons]
      refine ⟨?_, ?_, ?_, piece, ?_, hbelow, fun _ => habove hle⟩
      · rw [List.flatten_cons, hflatten]
      · exact List.forall_mem_cons.mpr ⟨List.ne_nil_of_length_pos (by rwa [hlength]), hne⟩
      · rw [List.dropLast_cons_of_ne_nil (List.ne_nil_of_mem (List.mem_of_getLast? hpiece))]
        exact List.forall_mem_cons.mpr ⟨hlength, heven⟩
      · rw [List.getLast?_cons, hpiece, Option.getD_some]

/-- Superblocks that are not the whole list. -/
theorem superblocks_eq_singleton_iff (hsize : 0 < size) (hpos : 0 < values.length) :
    superblocks size base values = [(base, values)] ↔ values.length < 2 * size := by
  refine ⟨fun hone => Nat.lt_of_not_le fun hlong => ?_,
    fun hshort => superblocks_of_short hshort hpos⟩
  rw [superblocks, if_neg (by omega)] at hone
  have hlength := congrArg List.length (Prod.mk.inj (List.cons.inj hone).1).2
  rw [List.length_take] at hlength
  omega

/-! ## Ways that are cut -/

section Cut

variable {w : Nat → Nat → Nat} {extra : Nat}

/-- A way can be made to pass a position. -/
theorem exists_way_through (hcut : ∀ {i k j}, i ≤ k → k ≤ j → w i k + w k j ≤ w i j + extra)
    {start edge : Nat} {stops : List Nat} (hincreasing : (start :: stops).Pairwise (· < ·))
    (hedge : start < edge) (hlast : edge ≤ stops.getLastD start) :
    ∃ through, (start :: through).Pairwise (· < ·) ∧ through.getLast? = stops.getLast? ∧
      edge ∈ through ∧ stops ⊆ through ∧
        wayCost w start through ≤ wayCost w start stops + extra := by
  induction stops generalizing start with
  | nil => exact absurd hedge (Nat.not_lt.mpr hlast)
  | cons stop stops ih =>
      obtain ⟨hfirst, hrest⟩ := List.pairwise_cons.mp hincreasing
      rcases Nat.lt_trichotomy edge stop with hbefore | rfl | hbehind
      · have hthis := hcut (Nat.le_of_lt hedge) (Nat.le_of_lt hbefore)
        refine ⟨edge :: stop :: stops, ?_, List.getLast?_cons_cons, .head _,
          List.subset_cons_self _ _, ?_⟩
        · refine List.pairwise_cons.mpr ⟨?_, List.pairwise_cons.mpr ⟨?_, hrest⟩⟩
          · exact List.forall_mem_cons.mpr ⟨hedge, hfirst⟩
          · exact List.forall_mem_cons.mpr ⟨hbefore, fun later hlater =>
              hbefore.trans ((List.pairwise_cons.mp hrest).1 later hlater)⟩
        · simp only [wayCost]
          omega
      · exact ⟨edge :: stops, hincreasing, rfl, .head _, List.Subset.refl _, Nat.le_add_right _ _⟩
      · rw [List.getLastD_cons] at hlast
        obtain ⟨through, hthrough, hend, hmem, hsub, hcost⟩ := ih hrest hbehind hlast
        have hstop := hfirst stop (.head _)
        refine ⟨stop :: through, List.pairwise_cons.mpr ⟨?_, hthrough⟩, ?_, .tail _ hmem,
          List.cons_subset_cons stop hsub, ?_⟩
        · exact List.forall_mem_cons.mpr ⟨hstop, fun later hlater =>
            hstop.trans ((List.pairwise_cons.mp hthrough).1 later hlater)⟩
        · rw [List.getLast?_cons, List.getLast?_cons, hend]
        · simp only [wayCost]
          omega

/-- A way can be made to pass any positions, at the same price for each. -/
theorem exists_ends_through (hcut : ∀ {i k j}, i ≤ k → k ≤ j → w i k + w k j ≤ w i j + extra)
    {ends : List Nat} (hends : Ends n ends) (edges : List Nat)
    (hedges : ∀ edge ∈ edges, 0 < edge ∧ edge ≤ n) :
    ∃ through, Ends n through ∧ edges ⊆ through ∧
      wayCost w 0 through ≤ wayCost w 0 ends + edges.length * extra := by
  induction edges with
  | nil => exact ⟨ends, hends, List.nil_subset _, Nat.le_add_right _ _⟩
  | cons edge edges ih =>
      obtain ⟨⟨hpos, hle⟩, hedges⟩ := List.forall_mem_cons.mp hedges
      obtain ⟨before, hbefore, hpasses, hcost⟩ := ih hedges
      obtain ⟨through, hthrough, hlast, hmem, hsub, hcost'⟩ := exists_way_through hcut
        hbefore.increasing_from_zero hpos (hle.trans (Nat.le_of_eq (hbefore.getLastD_eq 0).symm))
      obtain ⟨hpositive, hincreasing⟩ := List.pairwise_cons.mp hthrough
      refine ⟨through, ⟨hlast.trans hbefore.last, hincreasing, hpositive⟩,
        List.cons_subset.mpr ⟨hmem, fun _ hedge => hsub (hpasses hedge)⟩, ?_⟩
      rw [List.length_cons, Nat.succ_mul]
      omega

end Cut

theorem length_blockEnds (start : Nat) (blocks : List (Nat × List Nat)) :
    (blockEnds start blocks).length = blocks.length := by
  induction blocks generalizing start with
  | nil => rfl
  | cons block blocks ih => rw [blockEnds, List.length_cons, ih, List.length_cons]

/-- The plan of a list as a whole, cut at the edges of superblocks. -/
theorem exists_cut_plan {pricing : Pricing} (h : Rising base values) {edges ends : List Nat}
    (hedges : Ends values.length edges) (hends : Ends values.length ends) :
    ∃ through, Ends values.length through ∧ (∀ edge ∈ edges, edge ∈ through) ∧
      wayCost (edgeCost pricing base values) 0 through ≤
        wayCost (edgeCost pricing base values) 0 ends +
          (edges.length - 1) * (pricing.fixCost + 16) := by
  obtain ⟨inner, rfl⟩ := List.getLast?_eq_some_iff.mp hedges.last
  obtain ⟨through, hthrough, hpasses, hcost⟩ :=
    exists_ends_through (w := edgeCost pricing base values)
      (fun hik hkj => edgeCost_cut_le h hik hkj) hends inner fun edge hedge =>
        ⟨hedges.positive edge (List.mem_append_left _ hedge),
          hedges.le_of_mem (List.mem_append_left _ hedge)⟩
  refine ⟨through, hthrough, fun edge hedge => ?_, ?_⟩
  · rcases List.mem_append.mp hedge with hinner | hlast
    · exact hpasses hinner
    · rw [List.mem_singleton.mp hlast]
      exact List.mem_of_getLast? hthrough.last
  · rwa [List.length_append, List.length_singleton, Nat.add_sub_cancel]

/-- **Superblocks cost a bounded amount.**  They are consecutive pieces of the size that the
settings say, and each but one may cost the fixed cost and 16 bits, if planning is exact. -/
theorem planPartitions_split_le (codec : Codec) (hconfig : config.validate = .ok ())
    (hexact : config.isExact = true) (hvalues : Ascending values univ)
    (hbase : base ≤ values.headD 0) :
    let size := superblockSize config values.length
    let blocks := superblocks size base values
    ((config.eps3 == 0.0) = false →
      size = max (wholePart (nearestFloat config.fixCost / config.eps3)) 1) ∧
    Pieces size values (blocks.map (·.2)) ∧
    (blocks = [(base, values)] ↔ values.length < 2 * size) ∧
    ∃ split whole, planPartitions codec values base univ config = .ok split ∧
      planPartitions codec values base univ config.whole = .ok whole ∧
      whole.cost ≤ split.cost ∧
      split.cost ≤ whole.cost + (blocks.length - 1) * (config.fixCost + 16) := by
  intro size blocks
  have hpos := hvalues.length_pos
  have hsize : 0 < size := superblockSize_pos config hpos
  have hedges := superblockEdges_ends config base hpos
  obtain ⟨split, hsplit, hplan, hcheapest⟩ :=
    exists_planPartitions_exact codec hconfig hexact hvalues hbase
  obtain ⟨whole, hwhole, hwholePlan, hoptimal⟩ :=
    exists_planPartitions_whole codec hconfig hexact hvalues hbase
  obtain ⟨through, hthrough, hpasses, hcost⟩ := @exists_cut_plan base values
    ⟨codec, config.fixCost⟩ (rising_of_headD hvalues.increasing hbase) _ _ hedges hwholePlan.ends
  refine ⟨fun heps => if_neg (Bool.eq_false_iff.mp heps), superblocks_pieces hsize hpos,
    superblocks_eq_singleton_iff hsize hpos, split, whole, hsplit, hwhole, ?_, ?_⟩
  · rw [← hplan.cost]
    exact hoptimal hplan.ends
  · rw [← hwholePlan.cost]
    rw [superblockEdges, length_blockEnds] at hcost
    exact (hcheapest hthrough hpasses).trans hcost

theorem planPartitions_split_le_of_four :
    BuildConfig.validate { eps1 := 0.0, eps2 := 0.0, eps3 := 32.0 } = .ok () ∧
    Ascending [0, 1, 5, 9] 16 ∧
    ∃ split whole,
      planPartitions .vbyte [0, 1, 5, 9] 0 16 { eps1 := 0.0, eps2 := 0.0, eps3 := 32.0 } =
        .ok split ∧
      planPartitions .vbyte [0, 1, 5, 9] 0 16 { eps1 := 0.0, eps2 := 0.0, eps3 := 0.0 } =
        .ok whole ∧
      whole.cost ≤ split.cost ∧ split.cost ≤ whole.cost + 80 := by
  have hconfig : BuildConfig.validate { eps1 := 0.0, eps2 := 0.0, eps3 := 32.0 } = .ok () := by
    decide +kernel
  have hvalues : Ascending [0, 1, 5, 9] 16 := ⟨by decide, by decide, by decide, by decide⟩
  have hblocks : (superblocks (superblockSize { eps1 := 0.0, eps2 := 0.0, eps3 := 32.0 } 4) 0
      [0, 1, 5, 9]).length = 2 := by decide +kernel
  obtain ⟨-, -, -, split, whole, hsplit, hwhole, hle, hcost⟩ :=
    planPartitions_split_le .vbyte hconfig (by decide +kernel) hvalues (Nat.le_refl 0)
  exact ⟨hconfig, hvalues, split, whole, hsplit, hwhole, hle, by
    rwa [show [0, 1, 5, 9].length = 4 from rfl, hblocks] at hcost⟩

end Postings
