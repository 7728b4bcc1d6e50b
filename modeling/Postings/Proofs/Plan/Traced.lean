import Postings.Proofs.Plan.Moments

/-!
# The planner, tracing its windows

Each function of the planner is carried out again here, and writes down how a window stands
whenever it has moved one.  Without what it writes down it is the planner's own, and what it
writes down are the moments of the planner (`Traced.planBlock_eq`).  So what is said of all
moments is said of all that the windows of a planner go through.
-/

namespace Postings
namespace Traced

variable (pricing : Pricing) (codec : Codec) (config : BuildConfig)

/-! ## Carrying the planner out -/

/-- Takes up all values. -/
def takeUp (run : Priced) : List Nat → Priced × List Priced
  | [] => (run, [run])
  | v :: values =>
      let (last, stages) := takeUp (run.add codec v) values
      (last, run :: stages)

/-- Takes up values until the window ends at `target` or later. -/
def catchUp (target : Nat) (run : Priced) : List Nat → (Priced × List Nat) × List Priced
  | [] => ((run, []), [run])
  | v :: ahead =>
      if run.stop < target then
        let (caught, stages) := catchUp target (run.add codec v) ahead
        (caught, run :: stages)
      else ((run, v :: ahead), [run])

/-- Offers the run, and longer ones until the cost reaches the bound. -/
def grow (bound start base : Nat) (run : Priced) (routes : Routes) :
    List Nat → ((Priced × List Nat) × Routes) × List Priced
  | [] => (((run, []), routes.relax start run.stop (run.cost pricing start base)), [run])
  | v :: ahead =>
      let cost := run.cost pricing start base
      let routes := routes.relax start run.stop cost
      if bound ≤ cost then (((run, v :: ahead), routes), [run])
      else
        let (grown, stages) := grow bound start base (run.add pricing.codec v) routes ahead
        (grown, run :: stages)

/-- One position, window after window. -/
def passWindows (start base reached : Nat) (routes : Routes) :
    List Window → (List Window × Routes) × List Priced
  | [] => (([], routes), [])
  | w :: windows =>
      let ((run, ahead), caught) := catchUp pricing.codec reached w.run w.ahead
      let (((run, ahead), routes), grown) := grow pricing w.bound start base run routes ahead
      let ((windows, routes), others) := passWindows start base run.stop routes windows
      ((⟨run, ahead, w.bound⟩ :: windows, routes), caught ++ grown ++ others)

/-- All positions from `start` on. -/
def sweep (start base : Nat) (windows : List Window) (routes : Routes) :
    List Nat → Routes × List Moment
  | [] => (routes, [])
  | v :: values =>
      let one := (Priced.empty start base).add pricing.codec v
      let routes := routes.relax start one.stop (one.cost pricing start base)
      let ((windows, routes), stages) := passWindows pricing start base one.stop routes windows
      let moved := windows.map fun w => { w with run := w.run.dropFirst pricing.codec v base }
      let (routes, later) := sweep (start + 1) (v + 1) moved routes values
      (routes, stages.map (⟨start, base, ·, none⟩) ++ windows.map (⟨start, base, ·.run, some v⟩) ++
        moved.map (⟨start + 1, v + 1, ·.run, none⟩) ++ later)

/-- Offers every run that begins with `run`. -/
def offerRuns (start base : Nat) (run : Priced) (routes : Routes) :
    List Nat → Routes × List Priced
  | [] => (routes, [run])
  | v :: values =>
      let next := run.add pricing.codec v
      let (routes, stages) := offerRuns start base next
        (routes.relax start next.stop (next.cost pricing start base)) values
      (routes, run :: stages)

/-- Offers every run from position `start` on. -/
def offerAll (start base : Nat) (routes : Routes) : List Nat → Routes × List Moment
  | [] => (routes, [])
  | v :: values =>
      let (routes, stages) := offerRuns pricing start base (.empty start base) routes (v :: values)
      let (routes, later) := offerAll (start + 1) (v + 1) routes values
      (routes, stages.map (⟨start, base, ·, none⟩) ++ later)

/-- Plans one superblock, and adds the cost of its single partition up value by value. -/
def planBlock (base : Nat) (values : List Nat) : Plan × List Moment :=
  let pricing : Pricing := ⟨codec, config.fixCost⟩
  let (whole, stages) := takeUp codec (.empty 0 base) values
  let single := whole.cost pricing 0 base
  let first := stages.map (⟨0, base, ·, none⟩)
  if config.isExact then
    let (routes, later) := offerAll pricing 0 base (.start values.length single) values
    (routes.plan, first ++ later)
  else
    let bounds := windowBounds config (lowestCost pricing) single
    let windows := bounds.map fun bound => ⟨.empty 0 base, values, bound⟩
    let (routes, later) := sweep pricing 0 base windows (.start values.length single) values
    (routes.plan, first ++ later)

/-! ## What is carried out and what is written down -/

theorem takeUp_eq (run : Priced) (values : List Nat) :
    takeUp codec run values =
      (values.foldl (Priced.add codec) run, run.stages codec (fun _ => true) values) := by
  induction values generalizing run with
  | nil => rfl
  | cons v values ih =>
      rw [takeUp, ih]
      rfl

theorem catchUp_eq (target : Nat) (run : Priced) (ahead : List Nat) :
    catchUp codec target run ahead =
      (Window.catchUp codec target run ahead, run.stages codec (·.stop < target) ahead) := by
  induction ahead generalizing run with
  | nil => rfl
  | cons v ahead ih =>
      rw [catchUp, Window.catchUp, Priced.stages, ih]
      by_cases hshort : run.stop < target
      · rw [if_pos hshort, if_pos hshort, if_pos (decide_eq_true hshort)]
      · rw [if_neg hshort, if_neg hshort, if_neg (by simpa using hshort)]

theorem grow_eq (bound start base : Nat) (run : Priced) (routes : Routes) (ahead : List Nat) :
    grow pricing bound start base run routes ahead =
      (Window.grow pricing bound start base run routes ahead,
        run.stages pricing.codec (·.cost pricing start base < bound) ahead) := by
  induction ahead generalizing run routes with
  | nil => rfl
  | cons v ahead ih =>
      rw [grow, Window.grow, Priced.stages]
      simp only [ih]
      by_cases hreached : bound ≤ run.cost pricing start base
      · rw [if_pos hreached, if_pos hreached, if_neg (by simpa using hreached)]
      · rw [if_neg hreached, if_neg hreached, if_pos (by simpa using hreached)]

theorem passWindows_eq (start base reached : Nat) (routes : Routes) (windows : List Window) :
    passWindows pricing start base reached routes windows =
      (Postings.passWindows pricing start base reached routes windows,
        passStages pricing start base reached routes windows) := by
  induction windows generalizing reached routes with
  | nil => rfl
  | cons w windows ih =>
      rw [passWindows, Postings.passWindows, passStages, catchUp_eq]
      simp only [grow_eq, ih]

theorem sweep_eq (start base : Nat) (windows : List Window) (routes : Routes)
    (values : List Nat) :
    sweep pricing start base windows routes values =
      (Postings.sweep pricing start base windows routes values,
        sweepMoments pricing start base windows routes values) := by
  induction values generalizing start base windows routes with
  | nil => rfl
  | cons v values ih =>
      rw [sweep, Postings.sweep, sweepMoments]
      simp only [passWindows_eq, ih]
      rfl

theorem offerRuns_eq (start base : Nat) (run : Priced) (routes : Routes) (values : List Nat) :
    offerRuns pricing start base run routes values =
      (Postings.offerRuns pricing start base run routes values,
        run.stages pricing.codec (fun _ => true) values) := by
  induction values generalizing run routes with
  | nil => rfl
  | cons v values ih =>
      rw [offerRuns, Postings.offerRuns]
      simp only [ih]
      rfl

theorem offerAll_eq (start base : Nat) (routes : Routes) (values : List Nat) :
    offerAll pricing start base routes values =
      (Postings.offerAll pricing start base routes values,
        exactMoments pricing.codec start base values) := by
  induction values generalizing start base routes with
  | nil => rfl
  | cons v values ih =>
      rw [offerAll, Postings.offerAll, exactMoments, offerRuns_eq]
      simp only [ih]
      rfl

/-- The window that takes up all values costs what the single partition does. -/
theorem cost_foldl_add (base : Nat) (values : List Nat) :
    (values.foldl (Priced.add pricing.codec) (.empty 0 base)).cost pricing 0 base =
      singleCost pricing base values := by
  rw [foldl_add_eq, singleCost, partitionCost, Priced.cost]
  simp only [Priced.empty, Nat.zero_add, Nat.sub_zero]

/-- **A traced planner plans as the planner does, and writes down its moments.** -/
theorem planBlock_eq (base : Nat) (values : List Nat) :
    planBlock codec config base values =
      (Postings.planBlock codec config base values, planMoments codec config base values) := by
  have hsingle := cost_foldl_add ⟨codec, config.fixCost⟩ base values
  rw [planBlock, Postings.planBlock, planMoments, takeUp_eq]
  simp only [hsingle, offerAll_eq, sweep_eq]
  split <;> rfl

end Traced
end Postings
