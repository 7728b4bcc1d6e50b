import Postings.Proofs.Plan.Approximate

/-!
# Windows while they move

A planner never adds the cost of a window up: it carries the cost along, adds what the
value at the end costs when the window takes that value up, and subtracts what the first
value costs when the window gives it up.  `planMoments` lists how the windows stand
whenever one of them has moved, in the order in which the planner moves them.  At all of
these moments a window is *sound*: its cost is the sum over its values from scratch, and
it has the cost of the value that it is about to give up.

The moments are listed along the recursion of the planner, whose own functions say where
the windows go on from; a planner that writes them down as it goes writes down the same.
-/

namespace Postings

/-- How a window stands. -/
structure Moment where
  /-- Where the window begins. -/
  start : Nat
  /-- The base of its first value. -/
  base : Nat
  /-- What the planner knows of its values. -/
  run : Priced
  /-- The value that it is about to give up, if any. -/
  leaving : Option Nat

/-- How a run stands while it takes up values, as long as `goesOn` says so. -/
def Priced.stages (codec : Codec) (goesOn : Priced → Bool) (run : Priced) :
    (ahead : List Nat) → List Priced
  | [] => [run]
  | v :: ahead =>
      if goesOn run then run :: stages codec goesOn (run.add codec v) ahead else [run]

/-- How the runs stand at one position, window after window. -/
def passStages (pricing : Pricing) (start base reached : Nat) (routes : Routes) :
    List Window → List Priced
  | [] => []
  | w :: windows =>
      let caught := Window.catchUp pricing.codec reached w.run w.ahead
      let grown := Window.grow pricing w.bound start base caught.1 routes caught.2
      w.run.stages pricing.codec (·.stop < reached) w.ahead ++
        caught.1.stages pricing.codec (·.cost pricing start base < w.bound) caught.2 ++
        passStages pricing start base grown.1.1.stop grown.2 windows

/-- The moments of a sweep: at every position the windows pass, and then give up the value
there and begin at the next one. -/
def sweepMoments (pricing : Pricing) (start base : Nat) (windows : List Window)
    (routes : Routes) : List Nat → List Moment
  | [] => []
  | v :: values =>
      let one := (Priced.empty start base).add pricing.codec v
      let routes := routes.relax start one.stop (one.cost pricing start base)
      let passed := passWindows pricing start base one.stop routes windows
      let moved := passed.1.map (Window.moveOn pricing.codec v base)
      (passStages pricing start base one.stop routes windows).map (⟨start, base, ·, none⟩) ++
        passed.1.map (⟨start, base, ·.run, some v⟩) ++
        moved.map (⟨start + 1, v + 1, ·.run, none⟩) ++
        sweepMoments pricing (start + 1) (v + 1) moved passed.2 values

/-- The moments of a window that takes up all values. -/
def wholeMoments (codec : Codec) (start base : Nat) (values : List Nat) : List Moment :=
  ((Priced.empty start base).stages codec (fun _ => true) values).map (⟨start, base, ·, none⟩)

/-- The moments of the exact planner, which has a new window at every position. -/
def exactMoments (codec : Codec) (start base : Nat) : List Nat → List Moment
  | [] => []
  | v :: values => wholeMoments codec start base (v :: values) ++
      exactMoments codec (start + 1) (v + 1) values

/-- The moments of planning one superblock.  The first window is that of the single
partition. -/
def planMoments (codec : Codec) (config : BuildConfig) (base : Nat) (values : List Nat) :
    List Moment :=
  let pricing : Pricing := ⟨codec, config.fixCost⟩
  let single := singleCost pricing base values
  let bounds := windowBounds config (lowestCost pricing) single
  wholeMoments codec 0 base values ++
    if config.isExact then exactMoments codec 0 base values
    else sweepMoments pricing 0 base (bounds.map fun bound => ⟨.empty 0 base, values, bound⟩)
      (.start values.length single) values

/-! ## Windows are runs over a part of the list -/

variable {codec : Codec} {pricing : Pricing} {base start : Nat}
  {front part ahead rest values : List Nat}

/-- The window is over a part of the list, which begins with the value that it is about to
give up. -/
structure Moment.Over (codec : Codec) (base : Nat) (values front part ahead : List Nat)
    (m : Moment) : Prop where
  values_eq : values = front ++ (part ++ ahead)
  start_eq : m.start = front.length
  base_eq : m.base = runStop base front
  run_eq : m.run = .spanning codec front.length (runStop base front) part
  leaving : ∀ v, m.leaving = some v → part.head? = some v

/-- Taking up values, a run stays one over a part of the same values. -/
theorem stages_spanning {goesOn : Priced → Bool} (hpart : part ++ ahead = rest) :
    ∀ run ∈ (Priced.spanning codec start base part).stages codec goesOn ahead,
      ∃ part ahead, part ++ ahead = rest ∧ run = .spanning codec start base part := by
  induction ahead generalizing part with
  | nil =>
      intro run hrun
      exact ⟨part, [], hpart, List.mem_singleton.mp hrun⟩
  | cons v ahead ih =>
      intro run hrun
      rw [Priced.stages, Priced.add_spanning] at hrun
      split at hrun
      · rcases List.mem_cons.mp hrun with rfl | hrun
        · exact ⟨part, v :: ahead, hpart, rfl⟩
        · exact ih (by rw [List.append_assoc]; exact hpart) run hrun
      · exact ⟨part, v :: ahead, hpart, List.mem_singleton.mp hrun⟩

theorem passStages_spanning {windows : List Window} {routes : Routes} {reached : Nat}
    (hvalues : values = front ++ rest) (hrest : rest ≠ [])
    (hwindows : ∀ w ∈ windows, w.Sees pricing.codec front.length (runStop base front) rest)
    (hreached : front.length < reached)
    (h : routes.Honest (edgeCost pricing base values) values.length front.length) :
    ∀ run ∈ passStages pricing front.length (runStop base front) reached routes windows,
      ∃ part ahead, part ++ ahead = rest ∧
        run = .spanning pricing.codec front.length (runStop base front) part := by
  induction windows generalizing reached routes with
  | nil => exact fun _ hrun => absurd hrun List.not_mem_nil
  | cons w windows ih =>
      intro run hrun
      obtain ⟨hw, hwindows⟩ := List.forall_mem_cons.mp hwindows
      obtain ⟨caught, ahead, hcatch, hcaught, hpos, -⟩ := hw.catchUp hrest hreached
      obtain ⟨grown, later, routes', hgrow, -, hpos', hhonest, -⟩ :=
        @grow_spec pricing base front rest values routes w.bound caught ahead hvalues hcaught hpos h
      obtain ⟨seen, hseen, hpart⟩ := hw
      rw [passStages, hcatch] at hrun
      simp only [hgrow, List.mem_append] at hrun
      rcases hrun with (hrun | hrun) | hrun
      · rw [hseen] at hrun
        exact stages_spanning hpart run hrun
      · exact stages_spanning hcaught run hrun
      · exact ih hwindows (Nat.lt_add_of_pos_right hpos') hhonest run hrun

theorem wholeMoments_over (hvalues : values = front ++ rest) :
    ∀ m ∈ wholeMoments codec front.length (runStop base front) rest,
      ∃ front part ahead, m.Over codec base values front part ahead := by
  intro m hm
  obtain ⟨run, hrun, rfl⟩ := List.mem_map.mp hm
  obtain ⟨part, ahead, rfl, rfl⟩ :=
    @stages_spanning codec _ front.length [] rest rest _ (List.nil_append rest) run hrun
  exact ⟨front, part, ahead, hvalues, rfl, rfl, rfl, fun v hv => by cases hv⟩

theorem exactMoments_over (hvalues : values = front ++ rest) :
    ∀ m ∈ exactMoments codec front.length (runStop base front) rest,
      ∃ front part ahead, m.Over codec base values front part ahead := by
  induction rest generalizing front with
  | nil => exact fun _ hm => absurd hm List.not_mem_nil
  | cons v rest ih =>
      intro m hm
      rw [exactMoments, List.mem_append] at hm
      rcases hm with hm | hm
      · exact wholeMoments_over hvalues m hm
      · have hbase : runStop base (front ++ [v]) = v + 1 := runStop_append base front [v]
        refine @ih (front ++ [v]) (by rw [hvalues, List.append_assoc, List.singleton_append]) m ?_
        rwa [hbase, List.length_append]

theorem sweepMoments_over {windows : List Window} {routes : Routes}
    (hvalues : values = front ++ rest)
    (hwindows : ∀ w ∈ windows, w.Sees pricing.codec front.length (runStop base front) rest)
    (h : routes.Honest (edgeCost pricing base values) values.length front.length) :
    ∀ m ∈ sweepMoments pricing front.length (runStop base front) windows routes rest,
      ∃ front part ahead, m.Over pricing.codec base values front part ahead := by
  induction rest generalizing front windows routes with
  | nil => exact fun _ hm => absurd hm List.not_mem_nil
  | cons v rest ih =>
      have hlength : (front ++ [v]).length = front.length + 1 := by
        rw [List.length_append, List.length_singleton]
      have hbase : runStop base (front ++ [v]) = v + 1 := runStop_append base front [v]
      have hvalues' : values = (front ++ [v]) ++ rest := by
        rw [hvalues, List.append_assoc, List.singleton_append]
      obtain ⟨hone, -⟩ := relax_spanning hvalues (show [v] ++ rest = v :: rest from rfl)
        Nat.one_pos h
      rw [List.length_singleton, ← cost_one hvalues] at hone
      obtain ⟨passed, routes', hpass, hseen, hhonest⟩ := passWindows_spec hvalues
        (List.cons_ne_nil v rest) hwindows (Nat.lt_succ_self front.length) hone
      rw [sweepMoments]
      intro m hm
      simp only [Priced.add, Priced.empty] at hpass hm
      simp only [hpass, List.mem_append, List.mem_map] at hm
      rcases hm with ((⟨run, hrun, rfl⟩ | ⟨w, hw, rfl⟩) | ⟨w', ⟨w, hw, rfl⟩, rfl⟩) | hm
      · obtain ⟨part, ahead, hpart, hrun⟩ := passStages_spanning hvalues (List.cons_ne_nil v rest)
          hwindows (Nat.lt_succ_self front.length) hone run hrun
        exact ⟨front, part, ahead, by rw [hvalues, hpart], rfl, rfl, hrun, fun _ hv => by cases hv⟩
      · obtain ⟨part, hpos, hrun, hpart⟩ := hseen w hw
        refine ⟨front, part, w.ahead, by rw [hvalues, hpart], rfl, rfl, hrun, fun u hu => ?_⟩
        obtain ⟨first, part, rfl⟩ := List.exists_cons_of_length_pos hpos
        rw [← Option.some.inj hu, (List.cons.inj hpart).1]
        rfl
      · obtain ⟨part, hrun, hpart⟩ := sees_moveOn (hseen w hw)
        refine ⟨front ++ [v], part, w.ahead, ?_, hlength.symm, hbase.symm, hrun,
          fun _ hu => by cases hu⟩
        rw [hvalues', ← hpart]
        rfl
      · rw [← hlength, ← hbase] at hm
        exact ih hvalues' (List.forall_mem_map.mpr fun w hw => sees_moveOn (hseen w hw))
          (hhonest.mono (by omega)) m hm

/-- **Whatever a planner does, its windows are over parts of the superblock.** -/
theorem planMoments_over (config : BuildConfig) (hpos : 0 < values.length) :
    ∀ m ∈ planMoments codec config base values,
      ∃ front part ahead, m.Over codec base values front part ahead := by
  intro m hm
  rw [planMoments, List.mem_append] at hm
  rcases hm with hm | hm
  · exact @wholeMoments_over codec base [] values values rfl m hm
  · split at hm
    · exact @exactMoments_over codec base [] values values rfl m hm
    · have hstart := Routes.start_honest
        (w := edgeCost ⟨codec, config.fixCost⟩ base values) hpos
      rw [← singleCost_eq] at hstart
      exact @sweepMoments_over ⟨codec, config.fixCost⟩ base [] values values _ _ rfl
        (sees_fresh _) hstart m hm

/-! ## Windows over a part of the list are sound -/

/-- What the planner knows of a window is so: the sum of its posting costs, position by
position, and its bases.  It may give up its first value, the cost of which is in that sum. -/
structure Moment.Sound (codec : Codec) (base : Nat) (values : List Nat) (m : Moment) : Prop where
  start_le : m.start ≤ m.run.stop
  stop_le : m.run.stop ≤ values.length
  base_eq : m.base = positionBase base values m.start
  stopBase_eq : m.run.stopBase = positionBase base values m.run.stop
  base_le : m.base ≤ m.run.stopBase
  codecCost_eq : m.run.codecCost =
    ((List.range' m.start (m.run.stop - m.start)).map fun k =>
      codec.postingCost (values[k]?.getD 0) (positionBase base values k)).sum
  leaving : ∀ v, m.leaving = some v → m.start < m.run.stop ∧ values[m.start]? = some v ∧
    codec.postingCost v m.base ≤ m.run.codecCost

theorem Moment.Over.sound {m : Moment} (h : m.Over codec base values front part ahead)
    (hrising : Rising base values) : m.Sound codec base values := by
  obtain ⟨rfl, hstart, hbase, hrun, hleaving⟩ := h
  have hstop : m.run.stop = front.length + part.length := by rw [hrun]; rfl
  have hfront : runStop base front = positionBase base (front ++ (part ++ ahead)) front.length := by
    rw [← runStop_take (by simp), List.take_left]
  have hpart : runStop (runStop base front) part =
      positionBase base (front ++ (part ++ ahead)) (front.length + part.length) := by
    rw [← runStop_take (by simp), ← List.append_assoc, ← List.length_append, List.take_left,
      runStop_append]
  have hwithin := ((rising_append _ _ _).mp ((rising_append _ _ _).mp hrising).2).1.le_runStop
  refine ⟨?_, ?_, ?_, ?_, ?_, ?_, fun v hv => ?_⟩
  · omega
  · simp only [hstop, List.length_append]
    omega
  · rw [hbase, hstart, hfront]
  · rw [hstop, ← hpart, hrun]
    rfl
  · rw [hbase, hrun]
    exact (Nat.le_add_right _ _).trans hwithin
  · rw [hstop, hstart, Nat.add_sub_cancel_left, ← runCost_take (by simp), ← hfront, List.drop_left,
      List.take_left, hrun]
    rfl
  · obtain ⟨later, rfl⟩ := List.head?_eq_some_iff.mp (hleaving v hv)
    refine ⟨?_, ?_, ?_⟩
    · rw [hstart, hstop, List.length_cons]
      omega
    · rw [hstart, List.getElem?_append_right (Nat.le_refl _), Nat.sub_self]
      rfl
    · rw [hbase, hrun]
      exact Nat.le_add_right _ _

end Postings
