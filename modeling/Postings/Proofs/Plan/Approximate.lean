import Mathlib.Algebra.Order.Field.Rat
import Mathlib.Tactic.Linarith
import Mathlib.Tactic.NormNum
import Postings.Proofs.Plan.Growth
import Postings.Proofs.Plan.Optimal

/-!
# How far windows are from the best plan

At each position a window begins where it ended before, or where the window in front of
it ended, and stops where its cost reaches its bound.  So from a given position it offers
few edges.  But an edge that costs less than a bound, and not less than the bound before,
is passed by the window of that bound: at the first position from which the edge's end is
reached below the bound.  That position is no later than the edge's own source, so a way
to it is no more expensive.

The plan is therefore at most as expensive as any way whose edges are each raised to one
less than the next bound, and at most as expensive as the single partition.
-/

namespace Postings

open Partitioned (Ends)

/-! ## Bounds -/

/-- The smallest bound that a cost is below; zero if there is none. -/
def boundAbove (bounds : List Nat) (cost : Nat) : Nat :=
  (bounds.find? (cost < ·)).getD 0

section Bounds

variable {bounds : List Nat} {lo cost : Nat}

theorem boundAbove_cons (bound : Nat) (bounds : List Nat) (cost : Nat) :
    boundAbove (bound :: bounds) cost = if cost < bound then bound else boundAbove bounds cost := by
  rw [boundAbove, List.find?_cons]
  by_cases h : cost < bound
  · simp [h]
  · simp [h, boundAbove]

/-- A cost lies between two neighbours, the larger of which is the bound above it. -/
theorem exists_pair_boundAbove (hlo : lo ≤ cost) (h : cost < bounds.getLastD 0) :
    (∃ before, (before, boundAbove bounds cost) ∈ (lo :: bounds).zip bounds ∧ before ≤ cost) ∧
      cost < boundAbove bounds cost := by
  induction bounds generalizing lo with
  | nil => exact absurd h (Nat.not_lt_zero _)
  | cons bound bounds ih =>
      rw [List.zip_cons_cons]
      rcases Nat.lt_or_ge cost bound with hlt | hge
      · rw [boundAbove_cons, if_pos hlt]
        exact ⟨⟨lo, .head _, hlo⟩, hlt⟩
      · have hlast : cost < bounds.getLastD 0 := by
          cases bounds with
          | nil => exact absurd h (Nat.not_lt.mpr hge)
          | cons next bounds => exact h
        obtain ⟨⟨before, hmem, hbefore⟩, hlt⟩ := ih hge hlast
        rw [boundAbove_cons, if_neg (Nat.not_lt.mpr hge)]
        exact ⟨⟨before, .tail _ hmem, hbefore⟩, hlt⟩

theorem boundAbove_le {bound : Nat} (hsorted : bounds.Pairwise (· < ·)) (hbound : bound ∈ bounds)
    (h : cost < bound) : boundAbove bounds cost ≤ bound := by
  induction bounds with
  | nil => cases hbound
  | cons first bounds ih =>
      obtain ⟨hfirst, hrest⟩ := List.pairwise_cons.mp hsorted
      rcases Nat.lt_or_ge cost first with hlt | hge
      · rw [boundAbove_cons, if_pos hlt]
        rcases List.mem_cons.mp hbound with rfl | hmem
        · exact Nat.le_refl _
        · exact Nat.le_of_lt (hfirst bound hmem)
      · rw [boundAbove_cons, if_neg (Nat.not_lt.mpr hge)]
        rcases List.mem_cons.mp hbound with rfl | hmem
        · exact absurd h (Nat.not_lt.mpr hge)
        · exact ih hrest hmem

theorem boundAbove_mono {cost' : Nat} (hsorted : bounds.Pairwise (· < ·)) (hle : cost ≤ cost')
    (h : cost' < bounds.getLastD 0) : boundAbove bounds cost ≤ boundAbove bounds cost' := by
  obtain ⟨⟨before, hmem, -⟩, hlt⟩ := exists_pair_boundAbove (Nat.zero_le cost') h
  exact boundAbove_le hsorted (List.of_mem_zip hmem).2 (Nat.lt_of_le_of_lt hle hlt)

end Bounds

/-! ## What windows examine -/

/-- An edge that costs less than the bound, and not less than the bound before; from the
position before its source, its end was not reached below the bound. -/
structure Crosses (w : Nat → Nat → Nat) (before bound source target : Nat) : Prop where
  lt : source < target
  le_cost : before ≤ w source target
  cost_lt : w source target < bound
  first : ∀ earlier, earlier + 1 = source → bound ≤ w earlier target

/-- The edges from `source` that the window has passed are all below its bound. -/
def Window.Within (w : Nat → Nat → Nat) (source : Nat) (window : Window) : Prop :=
  ∀ t, source < t → t < window.run.stop → w source t < window.bound

/-- A window that comes to `source`: the edges that it has passed were below its bound at
the position before, so at position zero there is none. -/
def Window.Behind (w : Nat → Nat → Nat) (source : Nat) (window : Window) : Prop :=
  ∀ t, source < t → t < window.run.stop →
    ∃ earlier, earlier + 1 = source ∧ w earlier t < window.bound

theorem Window.Within.behind_moveOn {w : Nat → Nat → Nat} {source v base : Nat} {codec : Codec}
    {window : Window} (h : window.Within w source) :
    (window.moveOn codec v base).Behind w (source + 1) :=
  fun t hlt hstop => ⟨source, rfl, h t (Nat.lt_of_succ_lt hlt) hstop⟩

/-- No edge that crosses a bound at a position before `source` would make a way cheaper. -/
def Routes.Examined (r : Routes) (w : Nat → Nat → Nat) (n : Nat) (bounds : List Nat)
    (source : Nat) : Prop :=
  ∀ {before bound s t c}, (before, bound) ∈ (0 :: bounds).zip bounds → s < source → t ≤ n →
    Crosses w before bound s t → r.cost? s = some c → ∃ d, r.cost? t = some d ∧ d ≤ c + w s t

theorem Routes.Examined.later {r r' : Routes} {w : Nat → Nat → Nat} {n source : Nat}
    {bounds : List Nat} (h : r.Examined w n bounds source) (hlater : r'.Later r source) :
    r'.Examined w n bounds source := by
  intro before bound s t c hpair hs ht hcrosses hc
  rw [hlater.same (Nat.le_of_lt hs)] at hc
  obtain ⟨d, hd, hle⟩ := h hpair hs ht hcrosses hc
  obtain ⟨e, he, hle'⟩ := hlater.lower hd
  exact ⟨e, he, hle'.trans hle⟩

section Sweep

variable {pricing : Pricing} {base : Nat} {front rest values bounds : List Nat} {routes : Routes}
  (hincreasing : values.Pairwise (· < ·)) (hbase : base ≤ values.headD 0)

include hincreasing hbase

/-- A window that comes to a position behind one with a lower bound passes no edge at or
above its own bound. -/
theorem within_of_passed {w w' : Window} {before reached : Nat} {routes' : Routes}
    (h : Window.Passed pricing base values front rest reached routes w w' routes')
    (hbehind : w.Behind (edgeCost pricing base values) front.length)
    (hlow : ∀ t, front.length < t → t < reached →
      edgeCost pricing base values front.length t < before) (hle : before ≤ w.bound) :
    w'.Within (edgeCost pricing base values) front.length := by
  intro t hlt hstop
  rw [h.bound_eq]
  by_cases hreached : t < reached
  · exact Nat.lt_of_lt_of_le (hlow t hlt hreached) hle
  by_cases hran : t < w.run.stop
  · obtain ⟨earlier, heq, hbelow⟩ := hbehind t hlt hran
    exact Nat.lt_of_le_of_lt (edgeCost_mono hincreasing hbase (show earlier ≤ front.length by omega)
      (Nat.le_of_lt hlt) (Nat.le_refl t)) hbelow
  · exact h.below t (by omega) hstop

/-- An edge that crosses its bound is offered. -/
theorem offered_of_passed {w w' : Window} {before reached : Nat} {routes' : Routes}
    (h : Window.Passed pricing base values front rest reached routes w w' routes')
    (hbehind : w.Behind (edgeCost pricing base values) front.length)
    (hlow : ∀ t, front.length < t → t < reached →
      edgeCost pricing base values front.length t < before)
    {t c : Nat} (ht : t ≤ values.length)
    (hcrosses : Crosses (edgeCost pricing base values) before w.bound front.length t)
    (hc : routes.cost? front.length = some c) :
    ∃ d, routes'.cost? t = some d ∧ d ≤ c + edgeCost pricing base values front.length t := by
  -- The window begins no later than the end of the edge,
  have hreached : reached ≤ t := Nat.le_of_not_lt fun hlt =>
    Nat.not_le.mpr (hlow t hcrosses.lt hlt) hcrosses.le_cost
  have hran : w.run.stop ≤ t := Nat.le_of_not_lt fun hlt => by
    obtain ⟨earlier, heq, hbelow⟩ := hbehind t hcrosses.lt hlt
    exact Nat.not_le.mpr hbelow (hcrosses.first earlier heq)
  -- and stops no earlier, as the cost there has not reached the bound.
  have hstop : t ≤ w'.run.stop := Nat.le_of_not_lt fun hlt => by
    rcases h.stopped with hend | hbound
    · omega
    · have hgrown : edgeCost pricing base values front.length w'.run.stop ≤
          edgeCost pricing base values front.length t :=
        edgeCost_mono hincreasing hbase (Nat.le_refl _) (Nat.le_of_lt h.lt_stop) (Nat.le_of_lt hlt)
      exact Nat.not_le.mpr hcrosses.cost_lt (hbound.trans hgrown)
  exact h.offers.offered (Nat.max_le.mpr ⟨hran, hreached⟩) hstop hc

theorem passWindows_offers {windows : List Window} {before reached : Nat}
    (hvalues : values = front ++ rest) (hrest : rest ≠ [])
    (hsees : ∀ w ∈ windows, w.Sees pricing.codec front.length (runStop base front) rest)
    (hbehind : ∀ w ∈ windows, w.Behind (edgeCost pricing base values) front.length)
    (hreached : front.length < reached)
    (hlow : ∀ t, front.length < t → t < reached →
      edgeCost pricing base values front.length t < before)
    (hsorted : (before :: windows.map (·.bound)).Pairwise (· ≤ ·))
    (h : routes.Honest (edgeCost pricing base values) values.length front.length) :
    ∃ windows' routes', passWindows pricing front.length (runStop base front) reached routes
        windows = (windows', routes') ∧
      windows'.map (·.bound) = windows.map (·.bound) ∧
      (∀ w ∈ windows', w.Within (edgeCost pricing base values) front.length) ∧
      routes'.Later routes front.length ∧
      ∀ {lo bound t c},
        (lo, bound) ∈ (before :: windows.map (·.bound)).zip (windows.map (·.bound)) →
        t ≤ values.length → Crosses (edgeCost pricing base values) lo bound front.length t →
        routes.cost? front.length = some c →
        ∃ d, routes'.cost? t = some d ∧ d ≤ c + edgeCost pricing base values front.length t := by
  induction windows generalizing before reached routes with
  | nil =>
      exact ⟨[], routes, rfl, rfl, fun w hw => absurd hw List.not_mem_nil, .refl _ _,
        fun hpair => absurd hpair List.not_mem_nil⟩
  | cons w windows ih =>
      obtain ⟨hsee, hsees⟩ := List.forall_mem_cons.mp hsees
      obtain ⟨hbehindFirst, hbehind⟩ := List.forall_mem_cons.mp hbehind
      obtain ⟨hfirst, hsorted⟩ := List.pairwise_cons.mp hsorted
      obtain ⟨w', routes₁, hpassed, heq⟩ := passWindows_cons hvalues hrest hsee hreached h
      have hwithin := within_of_passed hincreasing hbase hpassed hbehindFirst hlow
        (hfirst w.bound (.head _))
      have hwithin' : ∀ t, front.length < t → t < w'.run.stop →
          edgeCost pricing base values front.length t < w.bound := by
        rw [← hpassed.bound_eq]
        exact hwithin
      obtain ⟨windows', routes', hpass, hbounds, hwithins, hlater, hoffered⟩ :=
        ih hsees hbehind hpassed.lt_stop
          hwithin' hsorted hpassed.honest
      refine ⟨w' :: windows', routes', heq hpass, ?_, List.forall_mem_cons.mpr ⟨hwithin, hwithins⟩,
        hlater.trans hpassed.offers.toLater, fun {lo bound t c} hpair ht hcrosses hc => ?_⟩
      · rw [List.map_cons, hbounds, hpassed.bound_eq, List.map_cons]
      · rcases List.mem_cons.mp hpair with hhere | hthere
        · obtain ⟨rfl, rfl⟩ := Prod.mk.inj hhere
          obtain ⟨d, hd, hle⟩ :=
            offered_of_passed hincreasing hbase hpassed hbehindFirst hlow ht hcrosses hc
          obtain ⟨e, he, hle'⟩ := hlater.lower hd
          exact ⟨e, he, hle'.trans hle⟩
        · exact hoffered hthere ht hcrosses ((hpassed.offers.same (Nat.le_refl _)).trans hc)

/-- After the sweep every edge that crosses a bound has been examined. -/
theorem sweep_offers (hsorted : bounds.Pairwise (· < ·)) {windows : List Window}
    (hvalues : values = front ++ rest)
    (hsees : ∀ w ∈ windows, w.Sees pricing.codec front.length (runStop base front) rest)
    (hbehind : ∀ w ∈ windows, w.Behind (edgeCost pricing base values) front.length)
    (hbounds : windows.map (·.bound) = bounds)
    (h : routes.Honest (edgeCost pricing base values) values.length front.length)
    (hexamined : routes.Examined (edgeCost pricing base values) values.length bounds front.length) :
    let swept := sweep pricing front.length (runStop base front) windows routes rest
    swept.Examined (edgeCost pricing base values) values.length bounds values.length ∧
      ∀ {p c}, routes.cost? p = some c → ∃ d, swept.cost? p = some d ∧ d ≤ c := by
  induction rest generalizing front windows routes with
  | nil =>
      rw [List.append_nil] at hvalues
      rw [hvalues] at hexamined ⊢
      exact ⟨hexamined, fun {p c} hc => ⟨c, hc, Nat.le_refl c⟩⟩
  | cons v rest ih =>
      obtain ⟨hone, honeLater⟩ :=
        relax_spanning hvalues (show [v] ++ rest = v :: rest from rfl) Nat.one_pos h
      rw [List.length_singleton] at hone honeLater
      have hreached : front.length < front.length + 1 := Nat.lt_succ_self _
      obtain ⟨windows', routes', hpass, hseen, hhonest⟩ := passWindows_spec hvalues
        (List.cons_ne_nil v rest) hsees hreached hone
      obtain ⟨windows'', routes'', hpass', hkept, hwithin, hlater, hoffered⟩ :=
        @passWindows_offers pricing base front (v :: rest) values _ hincreasing hbase windows 0 _
          hvalues (List.cons_ne_nil v rest) hsees hbehind hreached (fun t _ _ => by omega)
          (List.pairwise_cons.mpr ⟨fun _ _ => Nat.zero_le _,
            hbounds ▸ hsorted.imp Nat.le_of_lt⟩) hone
      obtain ⟨rfl, rfl⟩ := Prod.mk.inj (hpass.symm.trans hpass')
      have hlength : (front ++ [v]).length = front.length + 1 := by
        rw [List.length_append, List.length_singleton]
      have hfurther := hlater.trans honeLater.toLater
      have hexamined' : routes'.Examined (edgeCost pricing base values) values.length bounds
          (front ++ [v]).length := by
        intro lo bound s t c hpair hs ht hcrosses hc
        rw [hlength] at hs
        rcases Nat.lt_or_eq_of_le (Nat.le_of_lt_succ hs) with hearlier | rfl
        · exact hexamined.later hfurther hpair hearlier ht hcrosses hc
        · rw [hlater.same (Nat.le_refl _)] at hc
          exact hoffered (hbounds ▸ hpair) ht hcrosses hc
      obtain ⟨hswept, hlower⟩ := ih
        (by rw [hvalues, List.append_assoc, List.singleton_append])
        (List.forall_mem_map.mpr fun w hw => sees_moveOn (hseen w hw))
        (List.forall_mem_map.mpr fun w hw => hlength ▸ (hwithin w hw).behind_moveOn)
        (by rw [List.map_map]; exact hkept.trans hbounds)
        (hhonest.mono (by omega)) hexamined'
      rw [sweep_cons hvalues]
      simp only [hpass]
      refine ⟨hswept, fun {p c} hc => ?_⟩
      obtain ⟨d, hd, hle⟩ := hfurther.lower hc
      obtain ⟨e, he, hle'⟩ := hlower hd
      exact ⟨e, he, hle'.trans hle⟩

end Sweep

/-! ## Ways over raised edges -/

section Raised

variable {w : Nat → Nat → Nat} {n : Nat} {bounds : List Nat} {r : Routes}
  (hgrowing : ∀ {i i' j' j}, i ≤ i' → i' ≤ j' → j' ≤ j → w i' j' ≤ w i j)
  (hexamined : r.Examined w n bounds n)

include hgrowing hexamined

/-- For every edge below the last bound an edge to the same end was examined, which begins
no later and costs less than the bound above the cost of the former. -/
theorem exists_examined {s t : Nat} (hst : s < t) (ht : t ≤ n) (h : w s t < bounds.getLastD 0) :
    ∃ source, source ≤ s ∧ w source t < boundAbove bounds (w s t) ∧
      ∀ {c}, r.cost? source = some c → ∃ d, r.cost? t = some d ∧ d ≤ c + w source t := by
  obtain ⟨⟨before, hpair, hbefore⟩, hlt⟩ := exists_pair_boundAbove (Nat.zero_le (w s t)) h
  have hreached : ∃ source, w source t < boundAbove bounds (w s t) := ⟨s, hlt⟩
  have hle : Nat.find hreached ≤ s := Nat.find_min' hreached hlt
  have hcrosses : Crosses w before (boundAbove bounds (w s t)) (Nat.find hreached) t :=
    { lt := Nat.lt_of_le_of_lt hle hst
      le_cost := hbefore.trans (hgrowing hle (Nat.le_of_lt hst) (Nat.le_refl t))
      cost_lt := Nat.find_spec hreached
      first := fun earlier heq => Nat.not_lt.mp (Nat.find_min hreached (heq ▸ Nat.lt_succ_self _)) }
  exact ⟨Nat.find hreached, hle, Nat.find_spec hreached,
    fun hc => hexamined hpair (by omega) ht hcrosses hc⟩

/-- **Every position up to a stop of a way is reached** at no more than the raised cost of
the way to the stop. -/
theorem exists_cost_le_raised (hsorted : bounds.Pairwise (· < ·)) {s reached : Nat}
    {stops : List Nat} (hincreasing : (s :: stops).Pairwise (· < ·))
    (hstops : ∀ stop ∈ stops, stop ≤ n)
    (hbelow : ∀ edge ∈ (s :: stops).zip stops, w edge.1 edge.2 < bounds.getLastD 0)
    (hreached : ∀ t, t ≤ s → ∃ d, r.cost? t = some d ∧ d ≤ reached) {t : Nat}
    (ht : t ≤ stops.getLastD s) :
    ∃ d, r.cost? t = some d ∧
      d ≤ reached + wayCost (fun i j => boundAbove bounds (w i j) - 1) s stops := by
  induction stops generalizing s reached with
  | nil => exact hreached t ht
  | cons stop stops ih =>
      obtain ⟨hfirst, hrest⟩ := List.pairwise_cons.mp hincreasing
      rw [List.zip_cons_cons] at hbelow
      obtain ⟨hedge, hedges⟩ := List.forall_mem_cons.mp hbelow
      have hstop := hfirst stop (.head _)
      rw [wayCost, ← Nat.add_assoc]
      refine ih hrest (fun other hother => hstops other (.tail _ hother)) hedges
        (fun t ht => ?_) (by rwa [List.getLastD_cons] at ht)
      rcases Nat.lt_or_ge s t with hlt | hle
      · have hcost : w s t ≤ w s stop := hgrowing (Nat.le_refl s) (Nat.le_of_lt hlt) ht
        obtain ⟨source, hsource, hcheap, hoffered⟩ := exists_examined hgrowing hexamined hlt
          (ht.trans (hstops stop (.head _))) (Nat.lt_of_le_of_lt hcost hedge)
        have hraised := boundAbove_mono hsorted hcost hedge
        obtain ⟨c, hc, hcle⟩ := hreached source hsource
        obtain ⟨d, hd, hle⟩ := hoffered hc
        exact ⟨d, hd, by omega⟩
      · obtain ⟨d, hd, hle'⟩ := hreached t hle
        exact ⟨d, hd, hle'.trans (Nat.le_add_right _ _)⟩

end Raised

theorem mem_zip_way {s : Nat} {stops : List Nat} (hincreasing : (s :: stops).Pairwise (· < ·))
    {edge : Nat × Nat} (h : edge ∈ (s :: stops).zip stops) : edge.1 < edge.2 ∧ edge.2 ∈ stops := by
  induction stops generalizing s with
  | nil => cases h
  | cons stop stops ih =>
      obtain ⟨hfirst, hrest⟩ := List.pairwise_cons.mp hincreasing
      rw [List.zip_cons_cons] at h
      rcases List.mem_cons.mp h with rfl | h
      · exact ⟨hfirst stop (.head _), .head _⟩
      · obtain ⟨hlt, hmem⟩ := ih hrest h
        exact ⟨hlt, .tail _ hmem⟩

/-- No edge costs more than the way. -/
theorem cost_le_wayCost {w : Nat → Nat → Nat} {s : Nat} {stops : List Nat} {edge : Nat × Nat}
    (h : edge ∈ (s :: stops).zip stops) : w edge.1 edge.2 ≤ wayCost w s stops := by
  induction stops generalizing s with
  | nil => cases h
  | cons stop stops ih =>
      rw [List.zip_cons_cons] at h
      rw [wayCost]
      rcases List.mem_cons.mp h with rfl | h
      · exact Nat.le_add_right _ _
      · exact (ih h).trans (Nat.le_add_left _ _)

theorem wayCost_le_mul {w w' : Nat → Nat → Nat} {factor : ℚ} {s : Nat} {stops : List Nat}
    (h : ∀ edge ∈ (s :: stops).zip stops, (w edge.1 edge.2 : ℚ) ≤ factor * w' edge.1 edge.2) :
    (wayCost w s stops : ℚ) ≤ factor * wayCost w' s stops := by
  induction stops generalizing s with
  | nil => simp [wayCost]
  | cons stop stops ih =>
      rw [List.zip_cons_cons] at h
      obtain ⟨hedge, hedges⟩ := List.forall_mem_cons.mp h
      have hrest := ih hedges
      rw [wayCost, wayCost]
      push_cast
      linarith

/-- Where neighbouring bounds are close, one less than the bound above a cost is hardly more
than the cost. -/
theorem boundAbove_sub_one_le {bounds : List Nat} {lowest cost : Nat} {eps : ℚ} (heps : 0 ≤ eps)
    (hlowest : bounds.head? = some lowest)
    (hclose : bounds.IsChain fun b b' => (b' : ℚ) ≤ max ((b : ℚ) + 1) ((1 + eps) * b))
    (hcost : (lowest : ℚ) ≤ (1 + eps) * cost + 1) (h : cost < bounds.getLastD 0) :
    ((boundAbove bounds cost - 1 : Nat) : ℚ) ≤ (1 + eps) * cost := by
  induction bounds generalizing lowest with
  | nil => exact absurd h (Nat.not_lt_zero _)
  | cons bound bounds ih =>
      obtain rfl := Option.some.inj hlowest
      rw [boundAbove_cons]
      split
      · have hnonneg : 0 ≤ (1 + eps) * (cost : ℚ) := by positivity
        cases bound with
        | zero => simpa using hnonneg
        | succ bound =>
            rw [Nat.add_sub_cancel]
            push_cast at hcost
            linarith
      · rename_i hge
        have hle : (bound : ℚ) ≤ cost := Nat.cast_le.mpr (Nat.not_lt.mp hge)
        have hgrown : (bound : ℚ) ≤ (1 + eps) * bound :=
          le_mul_of_one_le_left (Nat.cast_nonneg _) (by linarith)
        have hscaled : (1 + eps) * (bound : ℚ) ≤ (1 + eps) * cost :=
          mul_le_mul_of_nonneg_left hle (by linarith)
        cases bounds with
        | nil => exact absurd h (Nat.not_lt.mpr (Nat.not_lt.mp hge))
        | cons next bounds =>
            obtain ⟨hnext, hclose⟩ := List.isChain_cons_cons.mp hclose
            refine ih rfl hclose (hnext.trans (max_le ?_ ?_)) h
            · linarith
            · linarith

/-! ## Chosen bounds -/

/-- Bounds increase from the first. -/
theorem boundsFrom_increasing (capped : Nat → Bool) (grown : Nat → Nat) (last bound : Nat) :
    boundsFrom capped grown last bound = [] ∨
      ∃ more, boundsFrom capped grown last bound = bound :: more ∧
        (bound :: more).Pairwise (· < ·) := by
  fun_induction boundsFrom capped grown last bound with
  | case1 bound hcapped => exact .inl rfl
  | case2 bound hcapped hreached => exact .inr ⟨[], rfl, List.pairwise_singleton _ _⟩
  | case3 bound hcapped hbelow ih =>
      refine .inr ⟨_, rfl, ?_⟩
      rcases ih with hnone | ⟨more, hmore, hsorted⟩
      · rw [hnone]
        exact List.pairwise_singleton _ _
      · rw [hmore]
        have hnext : bound < max (bound + 1) (grown bound) := by omega
        refine List.pairwise_cons.mpr ⟨List.forall_mem_cons.mpr ⟨hnext, fun b hb => ?_⟩, hsorted⟩
        exact Nat.lt_trans hnext ((List.pairwise_cons.mp hsorted).1 b hb)

/-- Bounds without a cap go on until one reaches the last. -/
theorem le_getLastD_boundsFrom {capped : Nat → Bool} (hcapped : ∀ b, capped b = false)
    (grown : Nat → Nat) (last bound default : Nat) :
    last ≤ (boundsFrom capped grown last bound).getLastD default := by
  fun_induction boundsFrom capped grown last bound generalizing default with
  | case1 bound hcap => exact absurd hcap (by simp [hcapped])
  | case2 bound hcap hreached => exact hreached
  | case3 bound hcap hbelow ih =>
      rw [List.getLastD_cons]
      exact ih bound

theorem windowBounds_increasing (config : BuildConfig) (lowest last : Nat) :
    (windowBounds config lowest last).Pairwise (· < ·) ∧
      (windowBounds config lowest last).head? = some lowest := by
  rw [windowBounds]
  split
  · exact ⟨List.pairwise_singleton _ _, rfl⟩
  · rename_i hne
    rcases boundsFrom_increasing _ _ last lowest with hnone | ⟨more, hmore, hsorted⟩
    · exact absurd hnone hne
    · rw [hmore]
      exact ⟨hsorted, rfl⟩

theorem le_getLastD_windowBounds {config : BuildConfig} (h : (config.eps1 == 0.0) = true)
    (lowest last : Nat) : last ≤ (windowBounds config lowest last).getLastD 0 := by
  have hreaches := @le_getLastD_boundsFrom
    (fun bound => config.eps1 != 0.0 && nearestFloat bound ≥ nearestFloat lowest / config.eps1)
    (fun _ => by rw [bne, h]; rfl)
    (fun bound => wholePart (nearestFloat bound * (1.0 + config.eps2))) last lowest
  rw [windowBounds]
  split
  · rename_i hnone
    have hlast := hreaches lowest
    rw [hnone] at hlast
    exact hlast
  · exact hreaches 0

/-! ## The plan -/

variable {pricing : Pricing} {base : Nat} {values bounds : List Nat}

/-- A partition costs at least the fixed cost. -/
theorem lowestCost_le (pricing : Pricing) (base : Nat) (values : List Nat) (i j : Nat) :
    lowestCost pricing ≤ cutCost pricing base values i j + 1 := by
  have hone : Adaptive.bitSize 0 1 1 = 0 := rfl
  rw [lowestCost, hone, cutCost]
  omega

/-- The windows' routes, once they have gone over the list: every edge that crosses a bound
was examined, and the way of a single edge was there from the start. -/
theorem planWindows_examined (hpos : 0 < values.length) (hincreasing : values.Pairwise (· < ·))
    (hbase : base ≤ values.headD 0) (hsorted : bounds.Pairwise (· < ·)) :
    ∃ r : Routes, r.cost? 0 = some 0 ∧
      r.Examined (edgeCost pricing base values) values.length bounds values.length ∧
      r.cost? values.length = some (planWindows pricing base bounds values).cost ∧
      (planWindows pricing base bounds values).cost ≤
        edgeCost pricing base values 0 values.length := by
  have hstart := Routes.start_honest (w := edgeCost pricing base values) hpos
  have hsingle : (Routes.start values.length (edgeCost pricing base values 0 values.length)).cost?
      values.length = some (edgeCost pricing base values 0 values.length) := by
    rw [Routes.cost?_start hpos, if_neg (Nat.ne_of_gt hpos), if_pos rfl]
  rw [← singleCost_eq] at hstart hsingle ⊢
  have hfresh : ∀ w ∈ bounds.map fun bound => (⟨.empty 0 base, values, bound⟩ : Window),
      w.Behind (edgeCost pricing base values) 0 :=
    List.forall_mem_map.mpr fun _ _ t _ hstop => absurd hstop (Nat.not_lt_zero t)
  have hbounds : (bounds.map fun bound => (⟨.empty 0 base, values, bound⟩ : Window)).map (·.bound) =
      bounds := by
    rw [List.map_map]
    exact List.map_id bounds
  have hhonest := @sweep_spec pricing base [] values values _ _ rfl (sees_fresh bounds) hstart
  obtain ⟨hexamined, hlower⟩ :=
    @sweep_offers pricing base [] values values bounds _ hincreasing hbase hsorted _ rfl
      (sees_fresh bounds) hfresh hbounds hstart fun _ hs => absurd hs (Nat.not_lt_zero _)
  obtain ⟨-, -, hlast⟩ := hhonest.plan hpos
  obtain ⟨d, hd, hle⟩ := hlower hsingle
  rw [hlast] at hd
  exact ⟨_, hhonest.zero, hexamined, hlast, Option.some.inj hd ▸ hle⟩

/-- The plan of the windows costs no more than the single partition. -/
theorem planWindows_le_single (hpos : 0 < values.length) (hincreasing : values.Pairwise (· < ·))
    (hbase : base ≤ values.headD 0) (hsorted : bounds.Pairwise (· < ·)) :
    (planWindows pricing base bounds values).cost ≤
      cutCost pricing base values 0 values.length := by
  obtain ⟨-, -, -, -, hsingle⟩ := @planWindows_examined pricing base values bounds hpos hincreasing
    hbase hsorted
  rwa [edgeCost_eq_cutCost_of_increasing hincreasing hbase hpos (Nat.le_refl _)] at hsingle

/-- It costs no more than any way below the last bound, the edges of which are raised. -/
theorem planWindows_le_raised (hpos : 0 < values.length) (hincreasing : values.Pairwise (· < ·))
    (hbase : base ≤ values.headD 0) (hsorted : bounds.Pairwise (· < ·)) {ends : List Nat}
    (hway : Ends values.length ends)
    (hbelow : ∀ edge ∈ (0 :: ends).zip ends,
      cutCost pricing base values edge.1 edge.2 < bounds.getLastD 0) :
    (planWindows pricing base bounds values).cost ≤
      wayCost (fun i j => boundAbove bounds (cutCost pricing base values i j) - 1) 0 ends := by
  have hcost : ∀ {i j}, i < j → j ≤ values.length →
      edgeCost pricing base values i j = cutCost pricing base values i j :=
    fun hij hj => edgeCost_eq_cutCost_of_increasing hincreasing hbase hij hj
  have hincreasing' := hway.increasing_from_zero
  obtain ⟨r, hzero, hexamined, hlast, -⟩ :=
    @planWindows_examined pricing base values bounds hpos hincreasing hbase hsorted
  obtain ⟨d, hd, hle⟩ := exists_cost_le_raised (edgeCost_mono hincreasing hbase) hexamined hsorted
    hincreasing' (fun stop => hway.le_of_mem)
    (fun edge hedge => by
      obtain ⟨hlt, hmem⟩ := mem_zip_way hincreasing' hedge
      rw [hcost hlt (hway.le_of_mem hmem)]
      exact hbelow edge hedge)
    (fun t ht => ⟨0, Nat.le_zero.mp ht ▸ hzero, Nat.le_refl 0⟩)
    (Nat.le_of_eq (hway.getLastD_eq 0).symm)
  rw [hlast] at hd
  rw [Nat.zero_add, wayCost_congr hincreasing' fun i j hij hj => by
    rw [hcost hij (hway.le_of_mem hj)]] at hle
  exact Option.some.inj hd ▸ hle

/-- No way is cheaper by more than the factor between neighbouring bounds, if the last bound
reaches the cost of the single partition. -/
theorem planWindows_le_mul (hpos : 0 < values.length) (hincreasing : values.Pairwise (· < ·))
    (hbase : base ≤ values.headD 0) (hsorted : bounds.Pairwise (· < ·))
    (hlowest : bounds.head? = some (lowestCost pricing)) {eps : ℚ} (heps : 0 ≤ eps)
    (hreaches : cutCost pricing base values 0 values.length ≤ bounds.getLastD 0)
    (hclose : bounds.IsChain fun b b' => (b' : ℚ) ≤ max ((b : ℚ) + 1) ((1 + eps) * b))
    {ends : List Nat} (hway : Ends values.length ends) :
    ((planWindows pricing base bounds values).cost : ℚ) ≤
      (1 + eps) * wayCost (cutCost pricing base values) 0 ends := by
  have hscaled : ∀ cost : Nat, (cost : ℚ) ≤ (1 + eps) * cost := fun cost =>
    le_mul_of_one_le_left (Nat.cast_nonneg cost) (by linarith)
  by_cases hbelow : ∀ edge ∈ (0 :: ends).zip ends,
      cutCost pricing base values edge.1 edge.2 < bounds.getLastD 0
  · have hraised := planWindows_le_raised hpos hincreasing hbase hsorted hway hbelow
    refine (Nat.cast_le.mpr hraised).trans (wayCost_le_mul fun edge hedge => ?_)
    refine boundAbove_sub_one_le heps hlowest hclose ?_ (hbelow edge hedge)
    have hfloor : ((lowestCost pricing : Nat) : ℚ) ≤
        (cutCost pricing base values edge.1 edge.2 : ℚ) + 1 := by
      exact_mod_cast lowestCost_le pricing base values edge.1 edge.2
    have hedgeScaled := hscaled (cutCost pricing base values edge.1 edge.2)
    linarith
  · -- An edge at or above the last bound costs no less than the single partition.
    push Not at hbelow
    obtain ⟨edge, hedge, hbound⟩ := hbelow
    have hle : (planWindows pricing base bounds values).cost ≤
        wayCost (cutCost pricing base values) 0 ends :=
      (planWindows_le_single hpos hincreasing hbase hsorted).trans
        (hreaches.trans (hbound.trans (cost_le_wayCost hedge)))
    exact (Nat.cast_le.mpr hle).trans (hscaled _)

/-- **Windows plan nearly as well as possible.**  The bounds may be any that increase from
the lowest cost on.  The plan is a way that costs what it says, and no more than the single
partition; it is no more expensive than any way below the last bound whose edges are raised
to one less than the bound above them.  Where the last bound reaches the cost of the single
partition and neighbouring bounds are close, no way at all is cheaper by more than the
factor between neighbours.  The bounds of any settings increase from the lowest cost on, and
reach the single partition if `eps1` is zero. -/
theorem planWindows_near_optimal (pricing : Pricing) (hpos : 0 < values.length)
    (hincreasing : values.Pairwise (· < ·)) (hbase : base ≤ values.headD 0)
    (hsorted : bounds.Pairwise (· < ·)) (hlowest : bounds.head? = some (lowestCost pricing)) :
    let plan := planWindows pricing base bounds values
    let cost := cutCost pricing base values
    let single := cost 0 values.length
    (Ends values.length plan.ends ∧ plan.cost = wayCost cost 0 plan.ends) ∧
    (∀ ends, Ends values.length ends →
      (∀ edge ∈ (0 :: ends).zip ends, cost edge.1 edge.2 < bounds.getLastD 0) →
      plan.cost ≤ wayCost (fun i j => boundAbove bounds (cost i j) - 1) 0 ends) ∧
    plan.cost ≤ single ∧
    (∀ eps : ℚ, 0 ≤ eps → single ≤ bounds.getLastD 0 →
      bounds.IsChain (fun b b' => (b' : ℚ) ≤ max ((b : ℚ) + 1) ((1 + eps) * b)) →
      ∀ ends, Ends values.length ends → (plan.cost : ℚ) ≤ (1 + eps) * wayCost cost 0 ends) ∧
    ∀ config : BuildConfig,
      let chosen := windowBounds config (lowestCost pricing) (singleCost pricing base values)
      chosen.Pairwise (· < ·) ∧ chosen.head? = some (lowestCost pricing) ∧
      ((config.eps1 == 0.0) = true → single ≤ chosen.getLastD 0) := by
  intro plan cost single
  have hcost : ∀ {i j}, i < j → j ≤ values.length → edgeCost pricing base values i j = cost i j :=
    fun hij hj => edgeCost_eq_cutCost_of_increasing hincreasing hbase hij hj
  obtain ⟨hends, hsum⟩ := @planWindows_spec pricing base values bounds hpos
  refine ⟨⟨hends, ?_⟩,
    fun ends hway hbelow => planWindows_le_raised hpos hincreasing hbase hsorted hway hbelow,
    planWindows_le_single hpos hincreasing hbase hsorted,
    fun eps heps hreaches hclose ends hway =>
      planWindows_le_mul hpos hincreasing hbase hsorted hlowest heps hreaches hclose hway,
    fun config => ?_⟩
  · rw [← hsum]
    exact wayCost_congr hends.increasing_from_zero fun i j hij hj => hcost hij (hends.le_of_mem hj)
  · obtain ⟨hchosen, hfirst⟩ := windowBounds_increasing config (lowestCost pricing)
      (singleCost pricing base values)
    refine ⟨hchosen, hfirst, fun heps => ?_⟩
    have hreaches := le_getLastD_windowBounds heps (lowestCost pricing)
      (singleCost pricing base values)
    rw [singleCost_eq, hcost hpos (Nat.le_refl _)] at hreaches
    rw [singleCost_eq, hcost hpos (Nat.le_refl _)]
    exact hreaches

/-- Three values and three bounds, neighbours of which differ by a quarter. -/
theorem planWindows_near_optimal_of_three :
    let pricing : Pricing := ⟨.vbyte, 64⟩
    [64, 80, 100].head? = some (lowestCost pricing) ∧ singleCost pricing 0 [0, 1, 5] = 80 ∧
    ∀ ends, Ends 3 ends →
      ((planWindows pricing 0 [64, 80, 100] [0, 1, 5]).cost : ℚ) ≤
        (1 + 1 / 4) * wayCost (cutCost pricing 0 [0, 1, 5]) 0 ends := by
  intro pricing
  have hlowest : [64, 80, 100].head? = some (lowestCost pricing) := by decide +kernel
  obtain ⟨-, -, -, hnear, -⟩ := @planWindows_near_optimal 0 [0, 1, 5] [64, 80, 100] pricing
    (by decide) (by decide) (by decide) (by decide) hlowest
  refine ⟨hlowest, by decide +kernel, hnear (1 / 4) (by norm_num) (by decide +kernel) ?_⟩
  refine .cons_cons (le_max_of_le_right ?_) (.cons_cons (le_max_of_le_right ?_) (.singleton _))
  · norm_num
  · norm_num

end Postings
