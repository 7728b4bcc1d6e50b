import Postings.Plan.Exact
import Postings.Proofs.Plan.Ways

/-!
# The exact planner

An edge is a partition, and costs what the partition costs: its base is the number
after the value before it.  The planner never computes that cost from scratch but
carries along the cost of a run; a run *over* a part of the list is one that has the
cost of that part.

All edges from a position are offered when the ways to it are known, so that after
the last position no edge is left that would make a way cheaper.
-/

namespace Postings

open Partitioned (Ends)

variable {pricing : Pricing} {base : Nat}

/-! ## Edges and runs -/

/-- The cost of the partition of the values from position `i` up to position `j`. -/
def edgeCost (pricing : Pricing) (base : Nat) (values : List Nat) (i j : Nat) : Nat :=
  partitionCost pricing.codec pricing.fixCost (runStop base (values.take i))
    ((values.drop i).take (j - i))

theorem edgeCost_append (front part ahead : List Nat) :
    edgeCost pricing base (front ++ (part ++ ahead)) front.length (front.length + part.length) =
      partitionCost pricing.codec pricing.fixCost (runStop base front) part := by
  rw [edgeCost, List.take_left, List.drop_left, Nat.add_sub_cancel_left, List.take_left]

theorem singleCost_eq (values : List Nat) :
    singleCost pricing base values = edgeCost pricing base values 0 values.length := by
  have hedge : edgeCost pricing base ([] ++ (values ++ [])) 0 (0 + values.length) = _ :=
    edgeCost_append [] values []
  rw [List.append_nil, List.nil_append, Nat.zero_add] at hedge
  exact hedge.symm

namespace Priced

/-- The run over a part of the list that begins at `start` with the given base. -/
def spanning (codec : Codec) (start base : Nat) (part : List Nat) : Priced :=
  ⟨start + part.length, runStop base part, runCost codec base part⟩

variable {codec : Codec} {start : Nat}

theorem empty_eq (codec : Codec) (start base : Nat) :
    empty start base = spanning codec start base [] :=
  rfl

theorem add_spanning (part : List Nat) (v : Nat) :
    (spanning codec start base part).add codec v = spanning codec start base (part ++ [v]) := by
  rw [spanning, add, spanning, List.length_append, runStop_append, runCost_append]
  rfl

theorem dropFirst_spanning (part : List Nat) (v : Nat) :
    (spanning codec start base (v :: part)).dropFirst codec v base =
      spanning codec (start + 1) (v + 1) part := by
  rw [spanning, dropFirst, spanning, runCost, Nat.add_sub_cancel_left, List.length_cons, runStop,
    Nat.add_right_comm, Nat.add_assoc]

theorem cost_spanning (part : List Nat) :
    (spanning pricing.codec start base part).cost pricing start base =
      partitionCost pricing.codec pricing.fixCost base part := by
  rw [spanning, cost, Nat.add_sub_cancel_left]
  rfl

end Priced

/-! ## Offering -/

variable {values : List Nat} {routes : Routes}

/-- All runs that go on from `part` are offered. -/
theorem offerRuns_spec {front part ahead : List Nat} (hvalues : values = front ++ (part ++ ahead))
    (h : routes.Honest (edgeCost pricing base values) values.length front.length) :
    let offered := offerRuns pricing front.length (runStop base front)
      (.spanning pricing.codec front.length (runStop base front) part) routes ahead
    offered.Honest (edgeCost pricing base values) values.length front.length ∧
    offered.Offers routes (edgeCost pricing base values) front.length
      (front.length + part.length + 1) values.length := by
  induction ahead generalizing part routes with
  | nil =>
      refine ⟨h, ⟨fun {p c} hc => ⟨c, hc, Nat.le_refl c⟩, fun _ => rfl⟩, fun hfirst hlast => ?_⟩
      rw [hvalues, List.append_nil, List.length_append] at hlast
      omega
  | cons v ahead ih =>
      have hvalues' : values = front ++ ((part ++ [v]) ++ ahead) := by
        rw [hvalues, List.append_assoc, List.singleton_append]
      have hlength : front.length + (part ++ [v]).length ≤ values.length := by
        rw [hvalues']
        simp only [List.length_append]
        omega
      have hsize : front.length + (part ++ [v]).length < routes.costs.size := by
        rw [h.size_costs]
        omega
      have hpart : (part ++ [v]).length = part.length + 1 := by
        rw [List.length_append, List.length_singleton]
      have hedge : partitionCost pricing.codec pricing.fixCost (runStop base front) (part ++ [v]) =
          edgeCost pricing base values front.length (front.length + (part ++ [v]).length) := by
        rw [hvalues', edgeCost_append]
      have hlonger : front.length < front.length + (part ++ [v]).length := by omega
      have hfirst : (routes.relax _ _ _).Offers routes (edgeCost pricing base values) front.length
          (front.length + (part ++ [v]).length) (front.length + (part ++ [v]).length) :=
        routes.relax_offers hlonger hsize
      obtain ⟨hhonest, hlater⟩ := ih hvalues' (h.relax hlonger hlength)
      rw [offerRuns]
      simp only [Priced.add_spanning, Priced.cost_spanning, hedge]
      refine ⟨hhonest, ?_⟩
      rw [Nat.add_assoc, ← hpart]
      exact hfirst.append hlater (Nat.le_refl _)

/-- All edges are offered, position after position. -/
theorem offerAll_spec {front rest : List Nat} (hvalues : values = front ++ rest)
    (h : routes.Honest (edgeCost pricing base values) values.length front.length)
    (hsettled : routes.Settled (edgeCost pricing base values) values.length front.length) :
    let offered := offerAll pricing front.length (runStop base front) routes rest
    offered.Honest (edgeCost pricing base values) values.length values.length ∧
      offered.Settled (edgeCost pricing base values) values.length values.length := by
  induction rest generalizing front routes with
  | nil =>
      have hlength : values.length = front.length := by rw [hvalues, List.append_nil]
      refine ⟨h.mono (Nat.le_of_eq hlength.symm), fun hs => hsettled ?_⟩
      rwa [← hlength]
  | cons v rest ih =>
      obtain ⟨hhonest, hoffers⟩ :=
        @offerRuns_spec pricing base values routes front [] (v :: rest) hvalues h
      have hvalues' : values = (front ++ [v]) ++ rest := by
        rw [hvalues, List.append_assoc, List.singleton_append]
      have hlength : (front ++ [v]).length = front.length + 1 := by
        rw [List.length_append, List.length_singleton]
      have hbase : runStop base (front ++ [v]) = v + 1 := runStop_append base front [v]
      rw [offerAll, Priced.empty_eq pricing.codec, ← hlength, ← hbase]
      refine ih hvalues' (hhonest.mono (by omega)) fun {s t c} hs hlt hle hc => ?_
      have hknown := (hoffers.same (show s ≤ front.length by omega)).symm.trans hc
      rcases Nat.lt_or_eq_of_le (show s ≤ front.length by omega) with hearlier | rfl
      · obtain ⟨d, hd, hle'⟩ := hsettled hearlier hlt hle hknown
        obtain ⟨e, he, hle''⟩ := hoffers.lower hd
        exact ⟨e, he, hle''.trans hle'⟩
      · exact hoffers.offered (by rw [List.length_nil]; omega) hle hknown

/-- **The exact plan is the cheapest** of all. -/
theorem planExact_spec (hpos : 0 < values.length) :
    Ends values.length (planExact pricing base values).ends ∧
    wayCost (edgeCost pricing base values) 0 (planExact pricing base values).ends =
      (planExact pricing base values).cost ∧
    ∀ {ends}, Ends values.length ends →
      (planExact pricing base values).cost ≤ wayCost (edgeCost pricing base values) 0 ends := by
  have hstart := Routes.start_honest (w := edgeCost pricing base values) hpos
  rw [← singleCost_eq] at hstart
  obtain ⟨hhonest, hsettled⟩ := @offerAll_spec pricing base values _ [] values rfl hstart
    fun hs => absurd hs (Nat.not_lt_zero _)
  obtain ⟨hends, hcost, hlast⟩ := hhonest.plan hpos
  refine ⟨hends, hcost, fun {ends} hother => ?_⟩
  obtain ⟨d, hd, hle⟩ := hsettled.le_wayCost hhonest.zero (Nat.zero_le _)
    hother.increasing_from_zero fun stop => hother.le_of_mem
  rw [hother.getLastD_eq, hlast] at hd
  rw [Nat.zero_add, ← Option.some.inj hd] at hle
  exact hle

end Postings
