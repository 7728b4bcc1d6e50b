import Postings.Plan.ShortestPath
import Postings.Proofs.Sequence.Partitioned.Bounds

/-!
# Ways and what they cost

A way leads from position zero over the ends of partitions to the last position,
and costs what its edges cost.  The routes that a planner keeps are *honest* when
every cost is that of a way, namely the way that the origins tell: this lasts as
long as edges are offered in the order of their sources, since an edge never leads
back to a position whose way has been used.  Honest routes have a plan that is a
way and costs what it says.

Routes are *settled* when no edge would make a way cheaper.  Then no way to the last
position is cheaper than the plan.
-/

namespace Postings

open Partitioned (Ends)

/-- The cost of going on from `start` over the given stops. -/
def wayCost (w : Nat → Nat → Nat) (start : Nat) : List Nat → Nat
  | [] => 0
  | stop :: stops => w start stop + wayCost w stop stops

theorem wayCost_append (w : Nat → Nat → Nat) (start : Nat) (stops others : List Nat) :
    wayCost w start (stops ++ others) =
      wayCost w start stops + wayCost w (stops.getLastD start) others := by
  induction stops generalizing start with
  | nil => exact (Nat.zero_add _).symm
  | cons stop stops ih =>
      rw [List.cons_append, wayCost, ih, wayCost, List.getLastD_cons, Nat.add_assoc]

theorem wayCost_congr {w w' : Nat → Nat → Nat} {start : Nat} {stops : List Nat}
    (hincreasing : (start :: stops).Pairwise (· < ·))
    (h : ∀ i j, i < j → j ∈ stops → w i j = w' i j) :
    wayCost w start stops = wayCost w' start stops := by
  induction stops generalizing start with
  | nil => rfl
  | cons stop stops ih =>
      obtain ⟨hfirst, hrest⟩ := List.pairwise_cons.mp hincreasing
      rw [wayCost, wayCost, h start stop (hfirst stop (.head _)) (.head _),
        ih hrest fun i j hij hj => h i j hij (.tail _ hj)]

/-- A way that is shifted as a whole. -/
theorem wayCost_map_add (w : Nat → Nat → Nat) (m start : Nat) (stops : List Nat) :
    wayCost w (m + start) (stops.map (m + ·)) =
      wayCost (fun i j => w (m + i) (m + j)) start stops := by
  induction stops generalizing start with
  | nil => rfl
  | cons stop stops ih => rw [List.map_cons, wayCost, wayCost, ih]

namespace Routes

/-- The position before a position on its way. -/
def origin (r : Routes) (position : Nat) : Nat :=
  r.origins[position]?.getD 0

/-- The costs are those of the ways that the origins tell.  Edges have been offered
from the positions up to `source`. -/
structure Honest (r : Routes) (w : Nat → Nat → Nat) (n source : Nat) : Prop where
  size_costs : r.costs.size = n + 1
  size_origins : r.origins.size = n + 1
  zero : r.cost? 0 = some 0
  origin_lt : ∀ {p}, 0 < p → p ≤ n → r.origin p < p
  origin_le : ∀ {p}, 0 < p → p ≤ n → r.origin p ≤ source
  attained : ∀ {p c}, 0 < p → p ≤ n → r.cost? p = some c →
    ∃ before, r.cost? (r.origin p) = some before ∧ c = before + w (r.origin p) p
  ends : ∃ c, r.cost? n = some c

/-- No edge from a position before `source` would make a way cheaper. -/
def Settled (r : Routes) (w : Nat → Nat → Nat) (n source : Nat) : Prop :=
  ∀ {s t c}, s < source → s < t → t ≤ n → r.cost? s = some c →
    ∃ d, r.cost? t = some d ∧ d ≤ c + w s t

variable {r : Routes} {w : Nat → Nat → Nat} {n source target : Nat}

theorem Honest.mono (h : r.Honest w n source) {later : Nat} (hle : source ≤ later) :
    r.Honest w n later :=
  { h with origin_le := fun hp hn => (h.origin_le hp hn).trans hle }

theorem cost?_start {single p : Nat} (hn : 0 < n) :
    (start n single).cost? p = if p = 0 then some 0 else if p = n then some single else none := by
  rw [cost?, start]
  simp only [Array.getElem?_setIfInBounds, Array.size_setIfInBounds, Array.size_replicate,
    Array.getElem?_replicate]
  by_cases hzero : p = 0
  · rw [if_neg (by omega), if_pos hzero.symm, if_pos (Nat.succ_pos n), if_pos hzero]
    rfl
  · rw [if_neg hzero]
    by_cases hlast : p = n
    · rw [if_pos hlast.symm, if_pos (Nat.lt_succ_self n), if_pos hlast]
      rfl
    · rw [if_neg (Ne.symm hlast), if_neg (Ne.symm hzero), if_neg hlast]
      split <;> rfl

theorem origin_start (n single p : Nat) : (start n single).origin p = 0 := by
  rw [origin, start]
  simp only [Array.getElem?_replicate]
  split <;> rfl

theorem start_honest (hn : 0 < n) : (start n (w 0 n)).Honest w n 0 where
  size_costs := by simp only [start, Array.size_setIfInBounds, Array.size_replicate]
  size_origins := by simp only [start, Array.size_replicate]
  zero := by rw [cost?_start hn, if_pos rfl]
  origin_lt := fun hp _ => by rwa [origin_start]
  origin_le := fun _ _ => Nat.le_of_eq (origin_start n _ _)
  attained := fun {p c} hp _ hc => by
    rw [origin_start, cost?_start hn, if_pos rfl]
    rw [cost?_start hn, if_neg (Nat.ne_of_gt hp)] at hc
    split at hc
    · rename_i hlast
      rw [hlast, ← Option.some.inj hc]
      exact ⟨0, rfl, (Nat.zero_add _).symm⟩
    · cases hc
  ends := ⟨w 0 n, by rw [cost?_start hn, if_neg (Nat.ne_of_gt hn), if_pos rfl]⟩

/-! ## One edge -/

/-- An edge is taken, or is no improvement. -/
theorem relax_cases (r : Routes) (source target edge : Nat) :
    (∃ c, r.cost? source = some c ∧ (∀ d, r.cost? target = some d → c + edge < d) ∧
      r.relax source target edge = ⟨r.costs.setIfInBounds target (some (c + edge)),
        r.origins.setIfInBounds target source⟩) ∨
    (r.relax source target edge = r ∧
      ∀ c, r.cost? source = some c → ∃ d, r.cost? target = some d ∧ d ≤ c + edge) := by
  rw [relax]
  cases hsource : r.cost? source with
  | none => exact .inr ⟨rfl, fun _ hc => by cases hc⟩
  | some c =>
      cases htarget : r.cost? target with
      | none => exact .inl ⟨c, rfl, fun _ hd => by (cases hd), rfl⟩
      | some d =>
          by_cases hbetter : c + edge < d
          · refine .inl ⟨c, rfl, fun e he => ?_, by simp only [decide_eq_true hbetter, if_true]⟩
            rwa [← Option.some.inj he]
          · refine .inr ⟨by simp only [decide_eq_false hbetter, Bool.false_eq_true, if_false],
              fun e he => ⟨d, rfl, ?_⟩⟩
            rw [← Option.some.inj he]
            exact Nat.not_lt.mp hbetter

theorem cost?_set (costs : Array (Option Nat)) (origins : Array Nat) (c p : Nat)
    (htarget : target < costs.size) :
    (Routes.mk (costs.setIfInBounds target (some c)) origins).cost? p =
      if p = target then some c else costs[p]?.join := by
  rw [cost?, Array.getElem?_setIfInBounds]
  by_cases hp : p = target
  · rw [if_pos hp.symm, if_pos htarget, if_pos hp]
    rfl
  · rw [if_neg (Ne.symm hp), if_neg hp]

theorem origin_set (costs : Array (Option Nat)) (origins : Array Nat) (source p : Nat)
    (htarget : target < origins.size) :
    (Routes.mk costs (origins.setIfInBounds target source)).origin p =
      if p = target then source else origins[p]?.getD 0 := by
  rw [origin, Array.getElem?_setIfInBounds]
  by_cases hp : p = target
  · rw [if_pos hp.symm, if_pos htarget, if_pos hp]
    rfl
  · rw [if_neg (Ne.symm hp), if_neg hp]

/-- Offering an edge leads on to routes that are as good: no way gets longer or lost, and
those to other positions stay. -/
structure Improves (r' r : Routes) (target : Nat) : Prop where
  lower : ∀ {p c}, r.cost? p = some c → ∃ d, r'.cost? p = some d ∧ d ≤ c
  other : ∀ {p}, p ≠ target → r'.cost? p = r.cost? p

theorem relax_improves (r : Routes) (source : Nat) {target : Nat} (edge : Nat)
    (htarget : target < r.costs.size) : (r.relax source target edge).Improves r target := by
  obtain ⟨c, hsource, hbetter, heq⟩ | ⟨heq, -⟩ := r.relax_cases source target edge
  · rw [heq]
    refine ⟨fun {p d} hd => ?_, fun hp => ?_⟩
    · rw [cost?_set _ _ _ _ htarget]
      split
      · rename_i hp
        rw [hp] at hd
        exact ⟨_, rfl, Nat.le_of_lt (hbetter d hd)⟩
      · exact ⟨d, hd, Nat.le_refl d⟩
    · rw [cost?_set _ _ _ _ htarget, if_neg hp]
      rfl
  · rw [heq]
    exact ⟨fun {p c} hc => ⟨c, hc, Nat.le_refl c⟩, fun _ => rfl⟩

/-- The way over an edge that has been offered is no cheaper. -/
theorem cost?_relax_le (r : Routes) {source target edge c : Nat} (htarget : target < r.costs.size)
    (hc : r.cost? source = some c) :
    ∃ d, (r.relax source target edge).cost? target = some d ∧ d ≤ c + edge := by
  obtain ⟨c', hsource, -, heq⟩ | ⟨heq, hkept⟩ := r.relax_cases source target edge
  · rw [heq, cost?_set _ _ _ _ htarget, if_pos rfl]
    rw [hc] at hsource
    rw [← Option.some.inj hsource]
    exact ⟨_, rfl, Nat.le_refl _⟩
  · rw [heq]
    exact hkept c hc

/-- Routes that came of `r` by edges from `source`: no way got longer or lost, and those
to positions up to the source stayed. -/
structure Later (r' r : Routes) (source : Nat) : Prop where
  lower : ∀ {p c}, r.cost? p = some c → ∃ d, r'.cost? p = some d ∧ d ≤ c
  same : ∀ {p}, p ≤ source → r'.cost? p = r.cost? p

theorem Later.refl (r : Routes) (source : Nat) : r.Later r source :=
  ⟨fun {_ c} hc => ⟨c, hc, Nat.le_refl c⟩, fun _ => rfl⟩

theorem Later.trans {r₁ r₂ : Routes} (h : r₂.Later r₁ source) (h' : r₁.Later r source) :
    r₂.Later r source where
  lower hc := by
    obtain ⟨d, hd, hle⟩ := h'.lower hc
    obtain ⟨e, he, hle'⟩ := h.lower hd
    exact ⟨e, he, hle'.trans hle⟩
  same hp := (h.same hp).trans (h'.same hp)

/-- Among these edges were those to the positions `first` to `last`. -/
structure Offers (r' r : Routes) (w : Nat → Nat → Nat) (source first last : Nat) : Prop
    extends r'.Later r source where
  offered : ∀ {t c}, first ≤ t → t ≤ last → r.cost? source = some c →
    ∃ d, r'.cost? t = some d ∧ d ≤ c + w source t

theorem relax_offers (r : Routes) (hlt : source < target) (hsize : target < r.costs.size) :
    (r.relax source target (w source target)).Offers r w source target target where
  lower := (r.relax_improves source (w source target) hsize).lower
  same hp := (r.relax_improves source (w source target) hsize).other (by omega)
  offered hfirst hlast hc := by
    obtain rfl := Nat.le_antisymm hfirst hlast
    exact r.cost?_relax_le hsize hc

/-- Edges that are offered in a row. -/
theorem Offers.append {r₁ r₂ : Routes} {first middle next last : Nat}
    (h : r₁.Offers r w source first middle) (h' : r₂.Offers r₁ w source next last)
    (hmeet : next ≤ middle + 1) : r₂.Offers r w source first last where
  toLater := h'.toLater.trans h.toLater
  offered {t c} hfirst hlast hc := by
    rcases Nat.lt_or_ge middle t with hlt | hle
    · exact h'.offered (by omega) hlast ((h.same (Nat.le_refl source)).trans hc)
    · obtain ⟨d, hd, hcost⟩ := h.offered hfirst hle hc
      obtain ⟨e, he, hcost'⟩ := h'.lower hd
      exact ⟨e, he, hcost'.trans hcost⟩

/-- Honest routes stay so when an edge onward is offered. -/
theorem Honest.relax (h : r.Honest w n source) (hlt : source < target) (hn : target ≤ n) :
    (r.relax source target (w source target)).Honest w n source := by
  have hsize : target < r.costs.size := by rw [h.size_costs]; omega
  have hsize' : target < r.origins.size := by rw [h.size_origins]; omega
  obtain ⟨c, hc, hbetter, heq⟩ | ⟨heq, -⟩ := r.relax_cases source target (w source target)
  · rw [heq]
    refine ⟨?_, ?_, ?_, fun {p} hp hle => ?_, fun {p} hp hle => ?_, fun {p d} hp hle hd => ?_, ?_⟩
    · rw [Array.size_setIfInBounds, h.size_costs]
    · rw [Array.size_setIfInBounds, h.size_origins]
    · rw [cost?_set _ _ _ _ hsize, if_neg (by omega)]
      exact h.zero
    · rw [origin_set _ _ _ _ hsize']
      split
      · omega
      · exact h.origin_lt hp hle
    · rw [origin_set _ _ _ _ hsize']
      split
      · exact Nat.le_refl _
      · exact h.origin_le hp hle
    -- No origin is the target, which lies behind every source so far.
    · rw [cost?_set _ _ _ _ hsize] at hd
      rw [origin_set _ _ _ _ hsize']
      split at hd
      · rename_i hp'
        rw [if_pos hp', cost?_set _ _ _ _ hsize, if_neg (Nat.ne_of_lt hlt), hp']
        exact ⟨c, hc, (Option.some.inj hd).symm⟩
      · rename_i hp'
        have horigin := h.origin_le hp hle
        rw [if_neg hp', cost?_set _ _ _ _ hsize, if_neg]
        · exact h.attained hp hle hd
        · change ¬ r.origin p = target
          omega
    · obtain ⟨d, hd⟩ := h.ends
      rw [cost?_set _ _ _ _ hsize]
      split
      · exact ⟨_, rfl⟩
      · exact ⟨d, hd⟩
  · rwa [heq]

/-! ## The way to a position -/

/-- A traced way ends at its position and costs what is recorded. -/
theorem Honest.exists_trace (h : r.Honest w n source) {steps : Nat} :
    ∀ {p c : Nat} (after : List Nat), p ≤ steps → p ≤ n → r.cost? p = some c →
      ∃ front, r.trace p after steps = front ++ after ∧ wayCost w 0 front = c ∧
        (p = 0 ∧ front = [] ∨ Ends p front) := by
  induction steps with
  | zero =>
      intro p c after hp _ hc
      obtain rfl : p = 0 := Nat.le_zero.mp hp
      rw [h.zero] at hc
      exact ⟨[], rfl, Option.some.inj hc, .inl ⟨rfl, rfl⟩⟩
  | succ steps ih =>
      intro p c after hp hn hc
      rw [trace]
      split
      · rename_i hzero
        rw [hzero, h.zero] at hc
        exact ⟨[], rfl, Option.some.inj hc, .inl ⟨hzero, rfl⟩⟩
      · rename_i hzero
        have hpos : 0 < p := Nat.pos_of_ne_zero hzero
        have hlt := h.origin_lt hpos hn
        obtain ⟨before, hbefore, rfl⟩ := h.attained hpos hn hc
        obtain ⟨front, htrace, hcost, hfront⟩ :=
          ih (p :: after) (show r.origin p ≤ steps by omega) (by omega) hbefore
        have hlast : front.getLastD 0 = r.origin p := by
          rcases hfront with ⟨hfirst, rfl⟩ | hends
          · exact hfirst.symm
          · exact hends.getLastD_eq 0
        refine ⟨front ++ [p], ?_, ?_, .inr ?_⟩
        · rw [List.append_assoc]
          exact htrace
        · rw [wayCost_append, hcost, hlast]
          rfl
        · rcases hfront with ⟨-, rfl⟩ | hends
          · exact .singleton hpos
          · exact hends.concat hlt

/-- **The plan of honest routes is a way**, and costs what it says. -/
theorem Honest.plan (h : r.Honest w n source) (hn : 0 < n) :
    Ends n r.plan.ends ∧ wayCost w 0 r.plan.ends = r.plan.cost ∧
      r.cost? n = some r.plan.cost := by
  obtain ⟨c, hc⟩ := h.ends
  obtain ⟨front, htrace, hcost, hfront⟩ := h.exists_trace [] (Nat.le_refl n) (Nat.le_refl n) hc
  have hends : Ends n front := hfront.resolve_left fun hzero => Nat.ne_of_gt hn hzero.1
  rw [List.append_nil] at htrace
  rw [Routes.plan, h.size_costs, Nat.add_sub_cancel]
  simp only [htrace, hc, Option.getD_some]
  exact ⟨hends, hcost, trivial⟩

/-- **No way is cheaper** than settled routes say. -/
theorem Settled.le_wayCost (h : r.Settled w n n) {s c : Nat} {stops : List Nat}
    (hc : r.cost? s = some c) (hs : s ≤ n) (hincreasing : (s :: stops).Pairwise (· < ·))
    (hstops : ∀ stop ∈ stops, stop ≤ n) :
    ∃ d, r.cost? (stops.getLastD s) = some d ∧ d ≤ c + wayCost w s stops := by
  induction stops generalizing s c with
  | nil => exact ⟨c, hc, Nat.le_refl c⟩
  | cons stop stops ih =>
      obtain ⟨hfirst, hrest⟩ := List.pairwise_cons.mp hincreasing
      have hlt := hfirst stop (.head _)
      have hstop := hstops stop (.head _)
      obtain ⟨d, hd, hle⟩ := h (by omega) hlt hstop hc
      obtain ⟨e, he, hle'⟩ := ih hd hstop hrest fun other hother => hstops other (.tail _ hother)
      rw [List.getLastD_cons]
      exact ⟨e, he, by rw [wayCost]; omega⟩

end Routes
end Postings
