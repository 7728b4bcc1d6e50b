import Postings.Plan.Optimal
import Postings.Proofs.Plan.Windows

/-!
# Plans of whole lists

A list is cut into superblocks, and what joins their plans is a plan of the list: the
base of a superblock is that of the position where it begins, so its edges cost in
the list what they cost in the superblock.  A way through all edges of superblocks
falls into ways through the superblocks, and none of them is cheaper than the plan
of its superblock when that is exact.
-/

namespace Postings

open Partitioned (Ends)

/-! ## Ways that are joined -/

section Joined

variable {m k n : Nat} {front back ends : List Nat}

theorem ends_join (hfront : Ends m front) (hback : Ends k back) :
    Ends (m + k) (front ++ back.map (m + ·)) where
  last := by rw [List.getLast?_append, List.getLast?_map, hback.last]; rfl
  increasing := by
    rw [List.pairwise_append, List.pairwise_map]
    refine ⟨hfront.increasing, hback.increasing.imp fun h => Nat.add_lt_add_left h m, ?_⟩
    intro stop hstop later hlater
    obtain ⟨after, hafter, rfl⟩ := List.mem_map.mp hlater
    have := hfront.le_of_mem hstop
    have := hback.positive after hafter
    omega
  positive := by
    intro stop hstop
    rcases List.mem_append.mp hstop with hstop | hstop
    · exact hfront.positive stop hstop
    · obtain ⟨after, hafter, rfl⟩ := List.mem_map.mp hstop
      exact Nat.add_pos_right m (hback.positive after hafter)

/-- A way falls into two at a position that it passes. -/
theorem exists_ends_split (h : Ends n ends) (hm : m ∈ ends) (hlt : m < n) :
    ∃ front back, ends = front ++ back.map (m + ·) ∧ Ends m front ∧ Ends (n - m) back := by
  obtain ⟨front, back, rfl⟩ := List.append_of_mem hm
  obtain ⟨hfront, hback, hacross⟩ := List.pairwise_append.mp h.increasing
  obtain ⟨hbehind, hback⟩ := List.pairwise_cons.mp hback
  have hlast : back.getLast? = some n := by
    have hlast := h.last
    rw [List.getLast?_append, List.getLast?_cons, Option.some_or] at hlast
    cases hend : back.getLast? with
    | none =>
        rw [hend] at hlast
        exact absurd (Option.some.inj hlast) (Nat.ne_of_lt hlt)
    | some last => rwa [hend] at hlast
  have hrestored : (back.map (· - m)).map (m + ·) = back := by
    rw [List.map_map]
    refine (List.map_congr_left fun stop hstop => ?_).trans (List.map_id back)
    exact Nat.add_sub_cancel' (Nat.le_of_lt (hbehind stop hstop))
  refine ⟨front ++ [m], back.map (· - m), ?_, ⟨List.getLast?_concat, ?_, ?_⟩, ⟨?_, ?_, ?_⟩⟩
  · rw [hrestored, List.append_assoc, List.singleton_append]
  · rw [List.pairwise_append]
    refine ⟨hfront, List.pairwise_singleton _ _, fun stop hstop last hlast => ?_⟩
    rw [List.mem_singleton.mp hlast]
    exact hacross stop hstop m (.head _)
  · intro stop hstop
    refine h.positive stop ?_
    rcases List.mem_append.mp hstop with hstop | hstop
    · exact List.mem_append_left _ hstop
    · rw [List.mem_singleton.mp hstop]
      exact hm
  · rw [List.getLast?_map, hlast]
    rfl
  · rw [List.pairwise_map]
    refine hback.imp_of_mem fun hi hj hij => ?_
    have := hbehind _ hi
    omega
  · intro stop hstop
    obtain ⟨original, hmem, rfl⟩ := List.mem_map.mp hstop
    have := hbehind original hmem
    omega

end Joined

variable {codec : Codec} {config : BuildConfig} {pricing : Pricing} {base : Nat}
  {block rest values : List Nat}

/-- An edge within the values in front costs what it costs there. -/
theorem edgeCost_left {i j : Nat} (hi : i ≤ block.length) (hj : j ≤ block.length) :
    edgeCost pricing base (block ++ rest) i j = edgeCost pricing base block i j := by
  rw [edgeCost, edgeCost, List.take_append_of_le_length hi, List.drop_append_of_le_length hi,
    List.take_append_of_le_length (by rw [List.length_drop]; omega)]

/-- An edge within the values behind costs what it costs there, with their base. -/
theorem edgeCost_right (i j : Nat) :
    edgeCost pricing base (block ++ rest) (block.length + i) (block.length + j) =
      edgeCost pricing (runStop base block) rest i j := by
  rw [edgeCost, edgeCost, List.take_length_add_append, List.drop_length_add_append,
    runStop_append, Nat.add_sub_add_left]

/-- Two ways in a row cost what they cost on their own. -/
theorem wayCost_join {front back : List Nat} (hfront : Ends block.length front) :
    wayCost (edgeCost pricing base (block ++ rest)) 0 (front ++ back.map (block.length + ·)) =
      wayCost (edgeCost pricing base block) 0 front +
        wayCost (edgeCost pricing (runStop base block) rest) 0 back := by
  have hleft : wayCost (edgeCost pricing base (block ++ rest)) 0 front =
      wayCost (edgeCost pricing base block) 0 front := by
    refine wayCost_congr hfront.increasing_from_zero fun i j hij hj => ?_
    have hle := hfront.le_of_mem hj
    exact edgeCost_left (by omega) hle
  have hright := wayCost_map_add (edgeCost pricing base (block ++ rest)) block.length 0 back
  rw [Nat.add_zero] at hright
  rw [wayCost_append, hleft, hfront.getLastD_eq, hright]
  simp only [edgeCost_right]

/-! ## Plans that are joined -/

/-- A plan of a list: a way through the given positions that costs what the plan says. -/
structure IsPlan (pricing : Pricing) (base : Nat) (values edges : List Nat) (plan : Plan) :
    Prop where
  ends : Ends values.length plan.ends
  passes : ∀ edge ∈ edges, edge ∈ plan.ends
  cost : wayCost (edgeCost pricing base values) 0 plan.ends = plan.cost

/-- No way through the given positions is cheaper. -/
def Cheapest (pricing : Pricing) (base : Nat) (values edges : List Nat) (plan : Plan) : Prop :=
  ∀ {ends}, Ends values.length ends → (∀ edge ∈ edges, edge ∈ ends) →
    plan.cost ≤ wayCost (edgeCost pricing base values) 0 ends

theorem joinPlans_eq (start : Nat) (plans : List Plan) :
    joinPlans start plans =
      ⟨(joinPlans 0 plans).ends.map (start + ·), (joinPlans 0 plans).cost⟩ := by
  induction plans generalizing start with
  | nil => rfl
  | cons plan plans ih =>
      rw [joinPlans, joinPlans]
      simp only
      rw [ih (start + plan.ends.getLastD 0), ih (0 + plan.ends.getLastD 0), List.map_append,
        List.map_map, List.map_map]
      simp only [Function.comp_def, Nat.zero_add, Nat.add_assoc]

/-- A superblock and what follows it. -/
theorem joinPlans_cons {plan : Plan} {plans : List Plan} (h : Ends block.length plan.ends) :
    joinPlans 0 (plan :: plans) =
      ⟨plan.ends ++ (joinPlans 0 plans).ends.map (block.length + ·),
        plan.cost + (joinPlans 0 plans).cost⟩ := by
  have hshift : plan.ends.map (0 + ·) = plan.ends := by simp only [Nat.zero_add, List.map_id']
  rw [joinPlans, h.getLastD_eq, joinPlans_eq (0 + block.length), Nat.zero_add, hshift]

/-- Where superblocks end, the first of which begins at `start`. -/
def blockEnds (start : Nat) : List (Nat × List Nat) → List Nat
  | [] => []
  | (_, block) :: blocks => (start + block.length) :: blockEnds (start + block.length) blocks

theorem blockEnds_eq (start : Nat) (blocks : List (Nat × List Nat)) :
    blockEnds start blocks = (blockEnds 0 blocks).map (start + ·) := by
  induction blocks generalizing start with
  | nil => rfl
  | cons block blocks ih =>
      obtain ⟨base, block⟩ := block
      rw [blockEnds, blockEnds, ih (start + block.length), ih (0 + block.length), List.map_cons,
        List.map_map]
      simp only [Function.comp_def, Nat.zero_add, Nat.add_assoc]

/-- The plan of a superblock and the plan of the rest are joined. -/
theorem IsPlan.join {edges : List Nat} {first others : Plan}
    (hfirst : IsPlan pricing base block [block.length] first)
    (hothers : IsPlan pricing (runStop base block) rest edges others) :
    IsPlan pricing base (block ++ rest) (block.length :: edges.map (block.length + ·))
      ⟨first.ends ++ others.ends.map (block.length + ·), first.cost + others.cost⟩ where
  ends := by
    rw [List.length_append]
    exact ends_join hfirst.ends hothers.ends
  passes := by
    intro edge hedge
    rcases List.mem_cons.mp hedge with rfl | hedge
    · exact List.mem_append_left _ (hfirst.passes _ (.head _))
    · obtain ⟨inner, hinner, rfl⟩ := List.mem_map.mp hedge
      exact List.mem_append_right _ (List.mem_map_of_mem (hothers.passes inner hinner))
  cost := by rw [wayCost_join hfirst.ends, hfirst.cost, hothers.cost]

theorem Cheapest.join {edges : List Nat} {first others : Plan}
    (hfirst : Cheapest pricing base block [block.length] first)
    (hothers : Cheapest pricing (runStop base block) rest edges others)
    (hrest : 0 < rest.length) (hedges : ∀ edge ∈ edges, 0 < edge) :
    Cheapest pricing base (block ++ rest) (block.length :: edges.map (block.length + ·))
      ⟨first.ends ++ others.ends.map (block.length + ·), first.cost + others.cost⟩ := by
  intro ends hends hpasses
  rw [List.length_append] at hends
  obtain ⟨front, back, rfl, hfront, hback⟩ := exists_ends_split hends
    (hpasses block.length (.head _)) (Nat.lt_add_of_pos_right hrest)
  rw [Nat.add_sub_cancel_left] at hback
  rw [wayCost_join hfront]
  refine Nat.add_le_add (hfirst hfront fun edge hedge => ?_) (hothers hback fun edge hedge => ?_)
  · rw [List.mem_singleton.mp hedge]
    exact List.mem_of_getLast? hfront.last
  · have hmem := hpasses (block.length + edge) (.tail _ (List.mem_map_of_mem hedge))
    rcases List.mem_append.mp hmem with hmem | hmem
    · have := hfront.le_of_mem hmem
      have := hedges edge hedge
      omega
    · obtain ⟨inner, hinner, heq⟩ := List.mem_map.mp hmem
      rwa [← Nat.add_left_cancel heq]

/-! ## Superblocks -/

theorem planBlock_spec (hpos : 0 < values.length) :
    IsPlan ⟨codec, config.fixCost⟩ base values [values.length]
      (planBlock codec config base values) := by
  have hplan : Ends values.length (planBlock codec config base values).ends ∧
      wayCost (edgeCost ⟨codec, config.fixCost⟩ base values) 0
        (planBlock codec config base values).ends = (planBlock codec config base values).cost := by
    rw [planBlock]
    split
    · obtain ⟨hends, hcost, -⟩ := @planExact_spec ⟨codec, config.fixCost⟩ base values hpos
      exact ⟨hends, hcost⟩
    · exact planWindows_spec _ hpos
  refine ⟨hplan.1, fun edge hedge => ?_, hplan.2⟩
  rw [List.mem_singleton.mp hedge]
  exact List.mem_of_getLast? hplan.1.last

theorem planBlock_cheapest (hexact : config.isExact = true) (hpos : 0 < values.length) :
    Cheapest ⟨codec, config.fixCost⟩ base values [values.length]
      (planBlock codec config base values) := by
  intro ends hends _
  obtain ⟨-, -, hcheapest⟩ := @planExact_spec ⟨codec, config.fixCost⟩ base values hpos
  rw [planBlock, if_pos hexact]
  exact hcheapest hends

/-- The joined plans of superblocks of the given size. -/
def blockPlan (codec : Codec) (config : BuildConfig) (size base : Nat) (values : List Nat) : Plan :=
  joinPlans 0 ((superblocks size base values).map fun (base, block) =>
    planBlock codec config base block)

/-- Superblocks, one after the other: what holds of a list that is one superblock, and of a
list that begins with one if it holds of what follows, holds of every list. -/
@[elab_as_elim]
theorem superblocks_induct (size : Nat) {P : (base : Nat) → (values : List Nat) →
      0 < values.length → Prop}
    (one : ∀ base values hpos, values.length < 2 * size ∨ size = 0 →
      superblocks size base values = [(base, values)] → P base values hpos)
    (many : ∀ base block rest hpos hrest, block.length = size → 0 < size → size ≤ rest.length →
      superblocks size base (block ++ rest) =
        (base, block) :: superblocks size (runStop base block) rest →
      P (runStop base block) rest hrest → P base (block ++ rest) hpos)
    (base : Nat) (values : List Nat) (hpos : 0 < values.length) : P base values hpos := by
  fun_induction superblocks size base values with
  | case1 base values hshort hempty =>
      rw [List.isEmpty_iff.mp hempty] at hpos
      cases hpos
  | case2 base values hshort hvalues =>
      refine one base values hpos hshort ?_
      rw [superblocks, if_pos hshort, if_neg hvalues]
  | case3 base values hlong block ih =>
      have hblocks : superblocks size base (block ++ values.drop size) =
          (base, block) :: superblocks size (runStop base block) (values.drop size) := by
        rw [List.take_append_drop, superblocks, if_neg hlong]
      rw [not_or] at hlong
      have hblock : block.length = size := by
        rw [List.length_take]
        omega
      have hrest : size ≤ (values.drop size).length := by
        rw [List.length_drop]
        omega
      have hjoined := many base block (values.drop size) (by rwa [List.take_append_drop]) (by omega)
        hblock (Nat.pos_of_ne_zero hlong.2) hrest hblocks (ih (by omega))
      simpa only [block, List.take_append_drop] using hjoined

theorem superblocks_of_short {size : Nat} (hshort : values.length < 2 * size)
    (hpos : 0 < values.length) : superblocks size base values = [(base, values)] := by
  rw [superblocks, if_pos (.inl hshort),
    if_neg (by rw [List.isEmpty_iff]; exact List.ne_nil_of_length_pos hpos)]

theorem blockPlan_one {size : Nat} (h : superblocks size base values = [(base, values)]) :
    blockPlan codec config size base values = planBlock codec config base values := by
  rw [blockPlan, h, List.map_singleton, joinPlans, joinPlans]
  simp only [Nat.zero_add, List.map_id', List.append_nil, Nat.add_zero]

theorem blockPlan_many {size : Nat} (hblock : 0 < block.length)
    (h : superblocks size base (block ++ rest) =
      (base, block) :: superblocks size (runStop base block) rest) :
    blockPlan codec config size base (block ++ rest) =
      ⟨(planBlock codec config base block).ends ++
        (blockPlan codec config size (runStop base block) rest).ends.map (block.length + ·),
        (planBlock codec config base block).cost +
          (blockPlan codec config size (runStop base block) rest).cost⟩ := by
  rw [blockPlan, h, List.map_cons, joinPlans_cons (planBlock_spec hblock).ends]
  rfl

theorem blockEnds_one {size : Nat} (h : superblocks size base values = [(base, values)]) :
    blockEnds 0 (superblocks size base values) = [values.length] := by
  rw [h, blockEnds, blockEnds, Nat.zero_add]

theorem blockEnds_many {size : Nat} (h : superblocks size base (block ++ rest) =
    (base, block) :: superblocks size (runStop base block) rest) :
    blockEnds 0 (superblocks size base (block ++ rest)) = block.length ::
      (blockEnds 0 (superblocks size (runStop base block) rest)).map (block.length + ·) := by
  rw [h, blockEnds, blockEnds_eq, Nat.zero_add]

/-- The plans of the superblocks make up a plan of the list, and one that is the
cheapest if they are exact. -/
theorem blockPlan_spec (size : Nat) (hpos : 0 < values.length) :
    IsPlan ⟨codec, config.fixCost⟩ base values (blockEnds 0 (superblocks size base values))
      (blockPlan codec config size base values) ∧
    (config.isExact = true →
      Cheapest ⟨codec, config.fixCost⟩ base values (blockEnds 0 (superblocks size base values))
        (blockPlan codec config size base values)) := by
  induction base, values, hpos using superblocks_induct size with
  | one base values hpos _ hone =>
      rw [blockPlan_one hone, blockEnds_one hone]
      exact ⟨planBlock_spec hpos, fun hexact => planBlock_cheapest hexact hpos⟩
  | many base block rest _ hrest hlength hsize _ hmany ih =>
      obtain ⟨hplan, hcheapest⟩ := ih
      have hblock : 0 < block.length := by omega
      rw [blockPlan_many hblock hmany, blockEnds_many hmany]
      exact ⟨(planBlock_spec hblock).join hplan, fun hexact =>
        Cheapest.join (planBlock_cheapest hexact hblock) (hcheapest hexact) hrest
          fun edge hedge => hplan.ends.positive edge (hplan.passes edge hedge)⟩

end Postings
