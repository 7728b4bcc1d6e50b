import Postings.Plan.Windows
import Postings.Proofs.Plan.Exact

/-!
# The planner with windows

A window is a run over a part of what follows the current position, and what is
ahead of it is the rest.  Whatever windows do, they offer the edges of the runs that
they stand at, all from the current position; so the routes stay honest, and the
plan is a way and costs what it says.

What one window does at one position is `Window.Passed`: from which end on it offers,
and where it stops.
-/

namespace Postings

open Partitioned (Ends)

variable {pricing : Pricing} {base : Nat} {front rest values : List Nat} {routes : Routes}

/-- A window at a position: its run is over a part of the values that follow, and the
others are ahead. -/
def Window.Sees (codec : Codec) (start base : Nat) (rest : List Nat) (w : Window) : Prop :=
  ∃ part, w.run = .spanning codec start base part ∧ part ++ w.ahead = rest

theorem catchUp_spec {codec : Codec} {start target : Nat} {part ahead : List Nat}
    (h : part ++ ahead = rest) :
    ∃ part' ahead', Window.catchUp codec target (.spanning codec start base part) ahead =
        (.spanning codec start base part', ahead') ∧
      part' ++ ahead' = rest ∧ (target ≤ start + part'.length ∨ ahead' = []) ∧
      start + part'.length ≤ max (start + part.length) target := by
  induction ahead generalizing part with
  | nil => exact ⟨part, [], rfl, h, .inr rfl, Nat.le_max_left _ _⟩
  | cons v ahead ih =>
      rw [Window.catchUp]
      split
      · rename_i hshort
        rw [Priced.add_spanning]
        obtain ⟨part', ahead', hcatch, hpart', hstop, hle⟩ :=
          @ih (part ++ [v]) (by rw [List.append_assoc]; exact h)
        have hlt : start + part.length < target := hshort
        rw [List.length_append, List.length_singleton] at hle
        exact ⟨part', ahead', hcatch, hpart', hstop, by omega⟩
      · rename_i hreached
        exact ⟨part, v :: ahead, rfl, h, .inl (Nat.not_lt.mp hreached), Nat.le_max_left _ _⟩

/-- A window that has caught up with an end after its position looks at a run that is not
empty. -/
theorem Window.Sees.catchUp {codec : Codec} {start : Nat} {w : Window}
    (hw : w.Sees codec start base rest) (hrest : rest ≠ []) {reached : Nat}
    (hreached : start < reached) :
    ∃ part ahead, Window.catchUp codec reached w.run w.ahead =
        (.spanning codec start base part, ahead) ∧
      part ++ ahead = rest ∧ 0 < part.length ∧ start + part.length ≤ max w.run.stop reached := by
  obtain ⟨seen, hrun, hseen⟩ := hw
  obtain ⟨part, ahead, hcatch, hpart, hstop, hle⟩ :=
    @catchUp_spec base rest codec start reached seen w.ahead hseen
  refine ⟨part, ahead, by rw [hrun, hcatch], hpart, ?_, by rw [hrun]; exact hle⟩
  rcases hstop with hstop | hnone
  · omega
  · rw [hnone, List.append_nil] at hpart
    rw [hpart]
    exact List.length_pos_iff.mpr hrest

/-- A run that a window stands at is an edge from the current position. -/
theorem cost_spanning_eq_edgeCost {part ahead : List Nat} (hvalues : values = front ++ rest)
    (hpart : part ++ ahead = rest) :
    (Priced.spanning pricing.codec front.length (runStop base front) part).cost pricing
        front.length (runStop base front) =
      edgeCost pricing base values front.length (front.length + part.length) := by
  rw [Priced.cost_spanning, hvalues, ← hpart, edgeCost_append]

theorem relax_spanning {part ahead : List Nat} (hvalues : values = front ++ rest)
    (hpart : part ++ ahead = rest) (hpos : 0 < part.length)
    (h : routes.Honest (edgeCost pricing base values) values.length front.length) :
    let w := edgeCost pricing base values
    let stop := front.length + part.length
    (routes.relax front.length stop (w front.length stop)).Honest w values.length front.length ∧
    (routes.relax front.length stop (w front.length stop)).Offers routes w front.length
        stop stop := by
  have hlength : front.length + part.length ≤ values.length := by
    rw [hvalues, ← hpart]
    simp only [List.length_append]
    omega
  have hlt : front.length < front.length + part.length := by omega
  exact ⟨h.relax hlt hlength, routes.relax_offers hlt (by rw [h.size_costs]; omega)⟩

/-- What growing does: the edges up to the new end are offered, those before it cost less
than the bound, and at the end the cost has reached the bound or no value is left. -/
theorem grow_spec {bound : Nat} {part ahead : List Nat} (hvalues : values = front ++ rest)
    (hpart : part ++ ahead = rest) (hpos : 0 < part.length)
    (h : routes.Honest (edgeCost pricing base values) values.length front.length) :
    ∃ part' ahead' routes', Window.grow pricing bound front.length (runStop base front)
        (.spanning pricing.codec front.length (runStop base front) part) routes ahead =
        ((.spanning pricing.codec front.length (runStop base front) part', ahead'), routes') ∧
      part' ++ ahead' = rest ∧ 0 < part'.length ∧
      routes'.Honest (edgeCost pricing base values) values.length front.length ∧
      routes'.Offers routes (edgeCost pricing base values) front.length
        (front.length + part.length) (front.length + part'.length) ∧
      (∀ t, front.length + part.length ≤ t → t < front.length + part'.length →
        edgeCost pricing base values front.length t < bound) ∧
      (ahead' = [] ∨
        bound ≤ edgeCost pricing base values front.length (front.length + part'.length)) := by
  induction ahead generalizing part routes with
  | nil =>
      obtain ⟨hhonest, hoffers⟩ := relax_spanning hvalues hpart hpos h
      rw [Window.grow, cost_spanning_eq_edgeCost hvalues hpart]
      exact ⟨part, [], _, rfl, hpart, hpos, hhonest, hoffers, fun t _ _ => by omega, .inl rfl⟩
  | cons v ahead ih =>
      obtain ⟨hhonest, hoffers⟩ := relax_spanning hvalues hpart hpos h
      rw [Window.grow]
      simp only [cost_spanning_eq_edgeCost hvalues hpart]
      split
      · rename_i hreached
        exact ⟨part, v :: ahead, _, rfl, hpart, hpos, hhonest, hoffers, fun t _ _ => by omega,
          .inr hreached⟩
      · rename_i hbelow
        have hstop : (part ++ [v]).length = part.length + 1 := by
          rw [List.length_append, List.length_singleton]
        obtain ⟨part', ahead', routes', hgrow, hpart', hpos', hhonest', hoffers', hbelow', hend⟩ :=
          @ih _ (part ++ [v]) (by rw [List.append_assoc]; exact hpart) (by omega) hhonest
        rw [Priced.add_spanning]
        refine ⟨part', ahead', routes', hgrow, hpart', hpos', hhonest',
          hoffers.append hoffers' (by omega), fun t hfirst hlast => ?_, hend⟩
        rcases Nat.lt_or_eq_of_le hfirst with hlater | rfl
        · exact hbelow' t (by omega) hlast
        · exact Nat.lt_of_not_le hbelow

/-- What one window does at a position: it ends no earlier than `reached` unless no value
is left, and it offers the edges from where it stood. -/
structure Window.Passed (pricing : Pricing) (base : Nat) (values front rest : List Nat)
    (reached : Nat) (routes : Routes) (w w' : Window) (routes' : Routes) : Prop where
  bound_eq : w'.bound = w.bound
  sees : ∃ part, 0 < part.length ∧
    w'.run = .spanning pricing.codec front.length (runStop base front) part ∧
    part ++ w'.ahead = rest
  honest : routes'.Honest (edgeCost pricing base values) values.length front.length
  offers : routes'.Offers routes (edgeCost pricing base values) front.length
    (max w.run.stop reached) w'.run.stop
  below : ∀ t, max w.run.stop reached ≤ t → t < w'.run.stop →
    edgeCost pricing base values front.length t < w.bound
  stopped : w'.run.stop = values.length ∨
    w.bound ≤ edgeCost pricing base values front.length w'.run.stop

theorem Window.Passed.lt_stop {reached : Nat} {routes' : Routes} {w w' : Window}
    (h : Window.Passed pricing base values front rest reached routes w w' routes') :
    front.length < w'.run.stop := by
  obtain ⟨part, hpos, hrun, -⟩ := h.sees
  rw [hrun]
  exact Nat.lt_add_of_pos_right hpos

theorem passWindows_cons {w : Window} {windows : List Window} (hvalues : values = front ++ rest)
    (hrest : rest ≠ []) (hw : w.Sees pricing.codec front.length (runStop base front) rest)
    {reached : Nat} (hreached : front.length < reached)
    (h : routes.Honest (edgeCost pricing base values) values.length front.length) :
    ∃ w' routes₁, Window.Passed pricing base values front rest reached routes w w' routes₁ ∧
      ∀ {windows' routes'}, passWindows pricing front.length (runStop base front) w'.run.stop
          routes₁ windows = (windows', routes') →
        passWindows pricing front.length (runStop base front) reached routes (w :: windows) =
          (w' :: windows', routes') := by
  obtain ⟨part₁, ahead₁, hcatch, hpart₁, hpos₁, hfirst⟩ := hw.catchUp hrest hreached
  obtain ⟨part₂, ahead₂, routes₂, hgrow, hpart₂, hpos₂, hhonest, hoffers, hbelow, hend⟩ :=
    @grow_spec pricing base front rest values routes w.bound part₁ ahead₁ hvalues hpart₁ hpos₁ h
  refine ⟨⟨.spanning pricing.codec front.length (runStop base front) part₂, ahead₂, w.bound⟩,
    routes₂, ⟨rfl, ⟨part₂, hpos₂, rfl, hpart₂⟩, hhonest,
      ⟨hoffers.toLater, fun h₁ h₂ => hoffers.offered (hfirst.trans h₁) h₂⟩,
      fun t h₁ h₂ => hbelow t (hfirst.trans h₁) h₂, ?_⟩, fun {windows' routes'} hpass => ?_⟩
  · refine hend.imp_left fun hnone => ?_
    rw [hnone, List.append_nil] at hpart₂
    rw [hvalues, ← hpart₂, List.length_append]
    rfl
  · rw [passWindows]
    simp only [hcatch, hgrow, hpass]

/-- Windows that have passed a position look at a run that is not empty. -/
theorem passWindows_spec {windows : List Window} (hvalues : values = front ++ rest)
    (hrest : rest ≠ []) (hwindows : ∀ w ∈ windows,
      w.Sees pricing.codec front.length (runStop base front) rest) {reached : Nat}
    (hreached : front.length < reached)
    (h : routes.Honest (edgeCost pricing base values) values.length front.length) :
    ∃ windows' routes', passWindows pricing front.length (runStop base front) reached routes
        windows = (windows', routes') ∧
      (∀ w ∈ windows', ∃ part, 0 < part.length ∧
        w.run = .spanning pricing.codec front.length (runStop base front) part ∧
        part ++ w.ahead = rest) ∧
      routes'.Honest (edgeCost pricing base values) values.length front.length := by
  induction windows generalizing reached routes with
  | nil => exact ⟨[], routes, rfl, fun w hw => absurd hw List.not_mem_nil, h⟩
  | cons w windows ih =>
      obtain ⟨hw, hwindows⟩ := List.forall_mem_cons.mp hwindows
      obtain ⟨w', routes₁, hpassed, heq⟩ := passWindows_cons hvalues hrest hw hreached h
      obtain ⟨windows', routes', hpass, hothers, hhonest⟩ :=
        ih hwindows hpassed.lt_stop hpassed.honest
      exact ⟨w' :: windows', routes', heq hpass,
        List.forall_mem_cons.mpr ⟨hpassed.sees, hothers⟩, hhonest⟩

/-- A window gives up the value that it begins with, which has the given base. -/
def Window.moveOn (codec : Codec) (v base : Nat) (w : Window) : Window :=
  { w with run := w.run.dropFirst codec v base }

/-- The partition of one value. -/
theorem cost_one {v : Nat} (hvalues : values = front ++ v :: rest) :
    ((Priced.empty front.length (runStop base front)).add pricing.codec v).cost pricing
        front.length (runStop base front) =
      edgeCost pricing base values front.length (front.length + 1) := by
  rw [Priced.empty_eq pricing.codec, Priced.add_spanning]
  exact @cost_spanning_eq_edgeCost pricing base front (v :: rest) values [v] rest hvalues rfl

/-- One position of the sweep: the partition of one value is offered, the windows pass, and
the position moves on. -/
theorem sweep_cons {v : Nat} {windows : List Window} (hvalues : values = front ++ v :: rest) :
    sweep pricing front.length (runStop base front) windows routes (v :: rest) =
      let one := front.length + 1
      let passed := passWindows pricing front.length (runStop base front) one
        (routes.relax front.length one (edgeCost pricing base values front.length one)) windows
      sweep pricing (front ++ [v]).length (runStop base (front ++ [v]))
        (passed.1.map (Window.moveOn pricing.codec v (runStop base front))) passed.2 rest := by
  have hlength : (front ++ [v]).length = front.length + 1 := by
    rw [List.length_append, List.length_singleton]
  have hbase : runStop base (front ++ [v]) = v + 1 := runStop_append base front [v]
  rw [sweep, hlength, hbase]
  simp only [cost_one hvalues]
  rfl

theorem sees_moveOn {v : Nat} {w : Window} (h : ∃ part, 0 < part.length ∧
    w.run = .spanning pricing.codec front.length (runStop base front) part ∧
    part ++ w.ahead = v :: rest) :
    (w.moveOn pricing.codec v (runStop base front)).Sees pricing.codec (front ++ [v]).length
      (runStop base (front ++ [v])) rest := by
  obtain ⟨part, hpos, hrun, hpart⟩ := h
  cases part with
  | nil => cases hpos
  | cons first part =>
      obtain ⟨rfl, hahead⟩ := List.cons.inj hpart
      refine ⟨part, ?_, hahead⟩
      rw [List.length_append, List.length_singleton, runStop_append]
      simp only [Window.moveOn, hrun, Priced.dropFirst_spanning]
      rfl

/-- Routes stay honest over all positions. -/
theorem sweep_spec {windows : List Window} (hvalues : values = front ++ rest)
    (hwindows : ∀ w ∈ windows, w.Sees pricing.codec front.length (runStop base front) rest)
    (h : routes.Honest (edgeCost pricing base values) values.length front.length) :
    (sweep pricing front.length (runStop base front) windows routes rest).Honest
      (edgeCost pricing base values) values.length values.length := by
  induction rest generalizing front windows routes with
  | nil =>
      rw [List.append_nil] at hvalues
      exact h.mono (by rw [hvalues])
  | cons v rest ih =>
      obtain ⟨hone, -⟩ := relax_spanning hvalues (show [v] ++ rest = v :: rest from rfl)
        Nat.one_pos h
      rw [List.length_singleton] at hone
      obtain ⟨windows', routes', hpass, hseen, hhonest⟩ := passWindows_spec hvalues
        (List.cons_ne_nil v rest) hwindows
        (show front.length < front.length + 1 from Nat.lt_succ_self _) hone
      rw [sweep_cons hvalues]
      simp only [hpass]
      refine ih (by rw [hvalues, List.append_assoc, List.singleton_append])
        (List.forall_mem_map.mpr fun w hw => sees_moveOn (hseen w hw))
        (hhonest.mono (by rw [List.length_append]; omega))

/-- Windows begin at position zero with nothing in them. -/
theorem sees_fresh (bounds : List Nat) : ∀ w ∈ bounds.map fun bound =>
    (⟨.empty 0 base, values, bound⟩ : Window), w.Sees pricing.codec 0 base values :=
  List.forall_mem_map.mpr fun _ _ => ⟨[], rfl, rfl⟩

/-- **The plan with windows is a way**, and costs what it says. -/
theorem planWindows_spec (bounds : List Nat) (hpos : 0 < values.length) :
    Ends values.length (planWindows pricing base bounds values).ends ∧
    wayCost (edgeCost pricing base values) 0 (planWindows pricing base bounds values).ends =
      (planWindows pricing base bounds values).cost := by
  have hstart := Routes.start_honest (w := edgeCost pricing base values) hpos
  rw [← singleCost_eq] at hstart
  have hhonest := @sweep_spec pricing base [] values values _ _ rfl (sees_fresh bounds) hstart
  obtain ⟨hends, hcost, -⟩ := hhonest.plan hpos
  exact ⟨hends, hcost⟩

end Postings
