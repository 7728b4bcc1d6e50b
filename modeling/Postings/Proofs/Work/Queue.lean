import Mathlib.Algebra.GroupWithZero.Nat
import Mathlib.Algebra.BigOperators.Group.List.Basic
import Postings.Work.Queue

/-!
# The construction queue conserves its jobs

A job that was submitted is in one of three places.  It is committed, or it is in a
batch that runs, or it waits in the open batch; and the three, in this order, are the
jobs as they were submitted.  Dispatching and joining only move jobs from one place to
the next.

What a batch does is a relation, `Work.Performs`: jobs are prepared, each of them once,
and what came of that is committed in turn.  It composes along lists of jobs, so where
the batches begin and end does not matter.  A run of calls succeeds if and only if its
jobs can be performed, however they are batched, and it leaves the same target as
performing them one by one.
-/

namespace Postings

variable {ι κ τ : Type}

/-! ## Performing jobs -/

/-- Jobs are performed on a target, one after another: a job is prepared, and what came
of that is committed. -/
inductive Work.Performs (work : Work ι κ τ) : τ → List ι → List κ → τ → Prop where
  | nil (target : τ) : Performs work target [] [] target
  | cons {target next last : τ} {job : ι} {prepared : κ} {jobs : List ι} {outcomes : List κ}
      (prepares : work.prepare job = .ok prepared)
      (commits : (work.commit prepared).runFrom target = (.ok (), next))
      (rest : Performs work next jobs outcomes last) :
      Performs work target (job :: jobs) (prepared :: outcomes) last

namespace Work.Performs

variable {work : Work ι κ τ} {target middle last : τ} {jobs more : List ι}
  {outcomes others : List κ}

theorem append (h : work.Performs target jobs outcomes middle)
    (h' : work.Performs middle more others last) :
    work.Performs target (jobs ++ more) (outcomes ++ others) last := by
  induction h with
  | nil => exact h'
  | cons prepares commits _ ih => exact .cons prepares commits (ih h')

/-- Performing two lists of jobs is performing the one and then the other. -/
theorem of_append (h : work.Performs target (jobs ++ more) outcomes last) :
    ∃ front back middle, outcomes = front ++ back ∧ work.Performs target jobs front middle ∧
      work.Performs middle more back last := by
  induction jobs generalizing target outcomes with
  | nil => exact ⟨[], outcomes, target, rfl, .nil target, h⟩
  | cons job jobs ih =>
      cases h with
      | cons prepares commits rest =>
          obtain ⟨front, back, middle, rfl, hfront, hback⟩ := ih rest
          exact ⟨_ :: front, back, middle, rfl, .cons prepares commits hfront, hback⟩

end Work.Performs

namespace Queue

variable {work : Work ι κ τ} {queue next : Queue ι τ}

/-! ## What a call does -/

/-- A commit goes by the target and changes nothing else. -/
theorem commit_ok_iff {prepared : κ} :
    (commit work prepared).runFrom queue = (.ok (), next) ↔
      ∃ target, (work.commit prepared).runFrom queue.target = (.ok (), target) ∧
        next = { queue with target } := by
  rw [show (commit work prepared).runFrom queue =
    (((work.commit prepared).runFrom queue.target).1,
      { queue with target := ((work.commit prepared).runFrom queue.target).2 }) from rfl]
  constructor
  · intro h
    obtain ⟨hanswer, rfl⟩ := Prod.mk.inj h
    exact ⟨_, Prod.ext hanswer rfl, rfl⟩
  · rintro ⟨target, hcommit, rfl⟩
    rw [hcommit]

/-- Committing prepared jobs in order is the second half of performing them. -/
theorem commitAll_ok_iff {batch : List ι} {outcomes : List κ}
    (hprepared : prepareAll work batch = .ok outcomes) :
    (outcomes.forM (commit work)).runFrom queue = (.ok (), next) ↔
      ∃ target, work.Performs queue.target batch outcomes target ∧
        next = { queue with target } := by
  induction batch generalizing queue outcomes with
  | nil =>
      obtain rfl := Except.ok.inj hprepared
      constructor
      · intro h
        obtain rfl : queue = next := congrArg Prod.snd h
        exact ⟨queue.target, .nil _, rfl⟩
      · rintro ⟨target, hperforms, rfl⟩
        cases hperforms
        rfl
  | cons job batch ih =>
      rw [prepareAll, List.mapM_cons] at hprepared
      obtain ⟨prepared, hjob, hprepared⟩ := exists_of_bind_eq_ok hprepared
      obtain ⟨rest, hrest, hprepared⟩ := exists_of_bind_eq_ok hprepared
      obtain rfl := Except.ok.inj hprepared
      rw [List.forM, Attempt.runFrom_bind_ok_iff]
      constructor
      · rintro ⟨_, _, hcommit, hcommits⟩
        obtain ⟨target, commits, rfl⟩ := commit_ok_iff.mp hcommit
        obtain ⟨last, hperforms, rfl⟩ := (ih hrest).mp hcommits
        exact ⟨last, .cons hjob commits hperforms, rfl⟩
      · rintro ⟨last, hperforms, rfl⟩
        cases hperforms with
        | cons prepares commits hperforms =>
            exact ⟨(), _, commit_ok_iff.mpr ⟨_, commits, rfl⟩,
              (ih hrest).mpr ⟨last, hperforms, rfl⟩⟩

theorem prepareAll_of_performs {target last : τ} {batch : List ι} {outcomes : List κ}
    (h : work.Performs target batch outcomes last) : prepareAll work batch = .ok outcomes := by
  induction h with
  | nil => rfl
  | cons prepares commits rest ih =>
      rw [prepareAll] at ih ⊢
      rw [List.mapM_cons, prepares, ih]
      rfl

/-- Running a batch performs its jobs on the target and touches nothing else. -/
theorem runBatch_ok_iff {batch : List ι} :
    (runBatch work batch).runFrom queue = (.ok (), next) ↔
      ∃ outcomes target, work.Performs queue.target batch outcomes target ∧
        next = { queue with target } := by
  rw [runBatch, Attempt.runFrom_lift_bind_ok_iff]
  constructor
  · rintro ⟨outcomes, hprepared, hcommits⟩
    obtain ⟨target, hperforms, hnext⟩ := (commitAll_ok_iff hprepared).mp hcommits
    exact ⟨outcomes, target, hperforms, hnext⟩
  · rintro ⟨outcomes, target, hperforms, hnext⟩
    have hprepared := prepareAll_of_performs hperforms
    exact ⟨outcomes, hprepared, (commitAll_ok_iff hprepared).mpr ⟨target, hperforms, hnext⟩⟩

/-- Joining takes the oldest batch out and performs it. -/
theorem join_ok_iff :
    (join work).runFrom queue = (.ok (), next) ↔
      (queue.running = [] ∧ next = queue) ∨
        ∃ batch running outcomes target, queue.running = batch :: running ∧
          work.Performs queue.target batch outcomes target ∧
          next = { queue with running, target } := by
  rw [join, Attempt.runFrom_bind, Attempt.runFrom_get]
  simp only
  cases hrunning : queue.running with
  | nil =>
      constructor
      · intro h
        exact .inl ⟨rfl, (congrArg Prod.snd h).symm⟩
      · rintro (⟨-, rfl⟩ | ⟨batch, running, outcomes, target, h, -⟩)
        · rfl
        · cases h
  | cons batch running =>
      rw [Attempt.runFrom_bind, Attempt.runFrom_modify]
      refine runBatch_ok_iff.trans ⟨?_, ?_⟩
      · rintro ⟨outcomes, target, hperforms, rfl⟩
        exact .inr ⟨batch, running, outcomes, target, rfl, hperforms, rfl⟩
      · rintro (⟨h, -⟩ | ⟨_, _, outcomes, target, h, hperforms, rfl⟩)
        · cases h
        · cases h
          exact ⟨outcomes, target, hperforms, rfl⟩

/-- The open batch runs, as the youngest one. -/
def dispatched (queue : Queue ι τ) : Queue ι τ :=
  { queue with openBatch := [], openWork := 0, running := queue.running ++ [queue.openBatch] }

/-- Dispatching makes room first, if there is none.  When that is refused, the open batch is
kept. -/
theorem runFrom_dispatch (work : Work ι κ τ) (queue : Queue ι τ) :
    (dispatch work).runFrom queue =
      if queue.maxRunning ≤ queue.running.length then
        match (join work).runFrom queue with
        | (.ok (), roomy) => (.ok (), roomy.dispatched)
        | (.error e, left) => (.error e, left)
      else (.ok (), queue.dispatched) := by
  rw [dispatch, Attempt.runFrom_bind, Attempt.runFrom_get]
  by_cases hfull : queue.maxRunning ≤ queue.running.length
  · simp only [if_pos hfull]
    rw [Attempt.runFrom_bind]
    rcases (join work).runFrom queue with ⟨_ | _, left⟩ <;> rfl
  · simp only [if_neg hfull]
    rfl

theorem dispatch_ok_iff :
    (dispatch work).runFrom queue = (.ok (), next) ↔
      ∃ roomy, (if queue.maxRunning ≤ queue.running.length
          then (join work).runFrom queue = (.ok (), roomy) else roomy = queue) ∧
        next = roomy.dispatched := by
  rw [runFrom_dispatch]
  by_cases hfull : queue.maxRunning ≤ queue.running.length
  · simp only [if_pos hfull]
    cases hjoin : (join work).runFrom queue with
    | mk answer left =>
        cases answer with
        | error e =>
            constructor
            · intro h
              cases h
            · rintro ⟨_, h, -⟩
              cases h
        | ok =>
            constructor
            · intro h
              exact ⟨left, rfl, (congrArg Prod.snd h).symm⟩
            · rintro ⟨roomy, hroomy, rfl⟩
              obtain rfl : left = roomy := congrArg Prod.snd hroomy
              rfl
  · simp only [if_neg hfull]
    constructor
    · intro h
      exact ⟨queue, rfl, (congrArg Prod.snd h).symm⟩
    · rintro ⟨_, rfl, rfl⟩
      rfl

/-- A job waits in the open batch. -/
def pushed (queue : Queue ι τ) (job : ι) (expected : Nat) : Queue ι τ :=
  { queue with
    openBatch := queue.openBatch ++ [job]
    openWork := (queue.openWork + expected) % 2 ^ 64 }

/-- A queue without batches performs a job when it is added. -/
theorem add_ok_iff_of_inline {job : ι} {expected : Nat} (hinline : queue.maxRunning = 0) :
    (add work job expected).runFrom queue = (.ok (), next) ↔
      ∃ outcomes target, work.Performs queue.target [job] outcomes target ∧
        next = { queue with target } := by
  rw [add, Attempt.runFrom_bind, Attempt.runFrom_get]
  simp only [if_pos hinline]
  rw [Attempt.runFrom_lift_bind_ok_iff]
  constructor
  · rintro ⟨prepared, hprepared, h⟩
    obtain ⟨target, hcommit, rfl⟩ := commit_ok_iff.mp h
    exact ⟨[prepared], target, .cons hprepared hcommit (.nil _), rfl⟩
  · rintro ⟨_, target, hperforms, rfl⟩
    cases hperforms with
    | cons prepares commits rest =>
        cases rest
        exact ⟨_, prepares, commit_ok_iff.mpr ⟨target, commits, rfl⟩⟩

/-- A queue with batches lets a job wait, and dispatches the open batch once it is
filled. -/
theorem runFrom_add_of_batched (work : Work ι κ τ) (hbatched : queue.maxRunning ≠ 0) (job : ι)
    (expected : Nat) :
    (add work job expected).runFrom queue =
      if queue.batchWork ≤ (queue.openWork + expected) % 2 ^ 64 then
        (dispatch work).runFrom (queue.pushed job expected)
      else (.ok (), queue.pushed job expected) := by
  rw [add, Attempt.runFrom_bind, Attempt.runFrom_get]
  simp only [if_neg hbatched]
  rw [Attempt.runFrom_bind, Attempt.runFrom_modify]
  simp only [Attempt.runFrom_bind, Attempt.runFrom_get]
  change Attempt.runFrom (if queue.batchWork ≤ (queue.openWork + expected) % 2 ^ 64
    then dispatch work else pure ()) (queue.pushed job expected) = _
  split <;> rfl

theorem add_ok_iff_of_batched {job : ι} {expected : Nat} (hbatched : queue.maxRunning ≠ 0) :
    (add work job expected).runFrom queue = (.ok (), next) ↔
      if queue.batchWork ≤ (queue.openWork + expected) % 2 ^ 64
        then (dispatch work).runFrom (queue.pushed job expected) = (.ok (), next)
        else next = queue.pushed job expected := by
  rw [runFrom_add_of_batched work hbatched]
  split
  · exact Iff.rfl
  · constructor
    · intro h
      exact (congrArg Prod.snd h).symm
    · rintro rfl
      rfl

/-- Completing a queue dispatches what waits in the open batch, and then joins as often as
batches run. -/
theorem complete_ok_iff :
    (complete work).runFrom queue = (.ok (), next) ↔
      ∃ full, (if queue.openBatch = [] then full = queue
          else (dispatch work).runFrom queue = (.ok (), full)) ∧
        (full.running.forM fun _ => join work).runFrom full = (.ok (), next) := by
  rw [complete, Attempt.runFrom_bind, Attempt.runFrom_get]
  simp only [List.isEmpty_iff]
  by_cases hempty : queue.openBatch = []
  · simp only [if_pos hempty, Attempt.runFrom_bind, Attempt.runFrom_get]
    constructor
    · intro h
      exact ⟨queue, rfl, h⟩
    · rintro ⟨_, rfl, h⟩
      exact h
  · simp only [if_neg hempty]
    rw [Attempt.runFrom_bind_ok_iff]
    constructor
    · rintro ⟨_, full, hdispatch, hjoins⟩
      exact ⟨full, hdispatch, hjoins⟩
    · rintro ⟨full, hdispatch, hjoins⟩
      exact ⟨(), full, hdispatch, hjoins⟩

/-! ## Where the jobs are -/

/-- The jobs that were submitted, each with its expected work, by where they are. -/
structure Places (ι : Type) where
  /-- What was committed. -/
  committed : List (ι × Nat)
  /-- The batches that run, oldest first. -/
  running : List (List (ι × Nat))
  /-- What waits in the open batch. -/
  waiting : List (ι × Nat)

/-- The jobs, from those that got furthest to those that came last. -/
def Places.inOrder (places : Places ι) : List (ι × Nat) :=
  places.committed ++ places.running.flatten ++ places.waiting

/-- The jobs that were submitted are in their places, in order, and those that were
committed were performed on the target. -/
structure Accounts (work : Work ι κ τ) (target : τ) (submitted : List (ι × Nat))
    (queue : Queue ι τ) (places : Places ι) : Prop where
  inOrder_eq : places.inOrder = submitted
  running_eq : queue.running = places.running.map (·.map Prod.fst)
  openBatch_eq : queue.openBatch = places.waiting.map Prod.fst
  openWork_eq : queue.openWork = (places.waiting.map Prod.snd).sum % 2 ^ 64
  performs : ∃ outcomes, work.Performs target (places.committed.map Prod.fst) outcomes queue.target

namespace Accounts

variable {target : τ} {submitted : List (ι × Nat)} {places : Places ι}

theorem start (work : Work ι κ τ) (target : τ) (batchWork maxRunning : Nat) :
    Accounts work target [] (Queue.start target batchWork maxRunning) ⟨[], [], []⟩ :=
  ⟨rfl, rfl, rfl, rfl, [], .nil target⟩

/-- The oldest batch goes from those that run to what is committed. -/
theorem join (h : Accounts work target submitted queue places)
    (hjoin : (Queue.join work).runFrom queue = (.ok (), next)) :
    ∃ places, Accounts work target submitted next places := by
  rcases join_ok_iff.mp hjoin with
    ⟨-, rfl⟩ | ⟨batch, running, outcomes, last, hrunning, hperforms, rfl⟩
  · exact ⟨places, h⟩
  · obtain ⟨committed, batches, waiting⟩ := places
    obtain ⟨before, hbefore⟩ := h.performs
    rw [h.running_eq] at hrunning
    obtain ⟨first, rest, rfl, rfl, rfl⟩ := List.map_eq_cons_iff.mp hrunning
    refine ⟨⟨committed ++ first, rest, waiting⟩, ?_, rfl, h.openBatch_eq, h.openWork_eq,
      before ++ outcomes, ?_⟩
    · rw [← h.inOrder_eq, Places.inOrder, Places.inOrder, List.flatten_cons, List.append_assoc,
        List.append_assoc, List.append_assoc, List.append_assoc]
    · rw [List.map_append]
      exact hbefore.append hperforms

/-- The open batch becomes the youngest of those that run. -/
theorem dispatched (h : Accounts work target submitted queue places) :
    Accounts work target submitted queue.dispatched
      ⟨places.committed, places.running ++ [places.waiting], []⟩ where
  inOrder_eq := by
    rw [← h.inOrder_eq, Places.inOrder, Places.inOrder, List.flatten_append, List.flatten_singleton,
      List.append_nil, List.append_assoc]
  running_eq := by
    rw [Queue.dispatched, List.map_append, h.running_eq, h.openBatch_eq]
    rfl
  openBatch_eq := rfl
  openWork_eq := rfl
  performs := h.performs

theorem dispatch (h : Accounts work target submitted queue places)
    (hdispatch : (Queue.dispatch work).runFrom queue = (.ok (), next)) :
    ∃ places, Accounts work target submitted next places := by
  obtain ⟨roomy, hroomy, rfl⟩ := dispatch_ok_iff.mp hdispatch
  split at hroomy
  · obtain ⟨places, h⟩ := h.join hroomy
    exact ⟨_, h.dispatched⟩
  · subst hroomy
    exact ⟨_, h.dispatched⟩

/-- A job that is submitted comes last. -/
theorem pushed (h : Accounts work target submitted queue places) (job : ι) (expected : Nat) :
    Accounts work target (submitted ++ [(job, expected)]) (queue.pushed job expected)
      { places with waiting := places.waiting ++ [(job, expected)] } where
  inOrder_eq := by
    rw [← h.inOrder_eq]
    exact (List.append_assoc _ _ _).symm
  running_eq := h.running_eq
  openBatch_eq := by
    rw [Queue.pushed, List.map_append, h.openBatch_eq]
    rfl
  openWork_eq := by
    rw [Queue.pushed, List.map_append, List.sum_append, h.openWork_eq, Nat.mod_add_mod]
    rfl
  performs := h.performs

end Accounts

/-- How many batches run and how much work waits; without batches nothing waits. -/
structure Bounded (batchWork maxRunning : Nat) (queue : Queue ι τ) : Prop where
  batchWork_eq : queue.batchWork = max batchWork 1
  maxRunning_eq : queue.maxRunning = maxRunning
  running_le : queue.running.length ≤ maxRunning
  openWork_lt : queue.openWork < max batchWork 1
  inline_nil : maxRunning = 0 → queue.openBatch = []

namespace Bounded

variable {batchWork maxRunning : Nat}

theorem start (target : τ) (batchWork maxRunning : Nat) :
    Bounded batchWork maxRunning (Queue.start target batchWork maxRunning : Queue ι τ) where
  batchWork_eq := rfl
  maxRunning_eq := rfl
  running_le := Nat.zero_le maxRunning
  openWork_lt := Nat.lt_of_lt_of_le Nat.one_pos (Nat.le_max_right batchWork 1)
  inline_nil _ := rfl

theorem running_nil (h : Bounded batchWork maxRunning queue) (hinline : maxRunning = 0) :
    queue.running = [] := by
  have := h.running_le
  exact List.length_eq_zero_iff.mp (by omega)

/-- Only the batches that run and the target change when one of them is joined, and there
is one less if there was one. -/
theorem of_join (hjoin : (Queue.join work).runFrom queue = (.ok (), next)) :
    next.batchWork = queue.batchWork ∧ next.maxRunning = queue.maxRunning ∧
      next.openBatch = queue.openBatch ∧ next.openWork = queue.openWork ∧
      next.running.length = queue.running.length - 1 := by
  rcases join_ok_iff.mp hjoin with ⟨hrunning, rfl⟩ | ⟨_, _, _, _, hrunning, -, rfl⟩
  · exact ⟨rfl, rfl, rfl, rfl, by rw [hrunning]; rfl⟩
  · exact ⟨rfl, rfl, rfl, rfl, by rw [hrunning]; rfl⟩

theorem join (h : Bounded batchWork maxRunning queue)
    (hjoin : (Queue.join work).runFrom queue = (.ok (), next)) :
    Bounded batchWork maxRunning next := by
  obtain ⟨hbatch, hmax, hopen, hwork, hlength⟩ := of_join hjoin
  have hle := h.running_le
  exact ⟨hbatch ▸ h.batchWork_eq, hmax ▸ h.maxRunning_eq, by omega, hwork ▸ h.openWork_lt,
    fun hinline => hopen ▸ h.inline_nil hinline⟩

/-- Dispatching empties the open batch, however full it is, and room is made where there
is none. -/
theorem of_dispatch (hbatch : queue.batchWork = max batchWork 1)
    (hmax : queue.maxRunning = maxRunning) (hpos : maxRunning ≠ 0)
    (hle : queue.running.length ≤ maxRunning)
    (hdispatch : (Queue.dispatch work).runFrom queue = (.ok (), next)) :
    Bounded batchWork maxRunning next := by
  obtain ⟨roomy, hroomy, rfl⟩ := dispatch_ok_iff.mp hdispatch
  obtain ⟨hbatch', hmax', hlt⟩ : roomy.batchWork = queue.batchWork ∧
      roomy.maxRunning = queue.maxRunning ∧ roomy.running.length < maxRunning := by
    split at hroomy
    · obtain ⟨hbatch', hmax', -, -, hlength⟩ := of_join hroomy
      exact ⟨hbatch', hmax', by omega⟩
    · subst hroomy
      exact ⟨rfl, rfl, by omega⟩
  refine ⟨hbatch'.trans hbatch, hmax'.trans hmax, ?_,
    Nat.lt_of_lt_of_le Nat.one_pos (Nat.le_max_right batchWork 1), fun _ => rfl⟩
  rw [dispatched, List.length_append, List.length_singleton]
  exact hlt

theorem dispatch (h : Bounded batchWork maxRunning queue) (hwaiting : queue.openBatch ≠ [])
    (hdispatch : (Queue.dispatch work).runFrom queue = (.ok (), next)) :
    Bounded batchWork maxRunning next :=
  of_dispatch h.batchWork_eq h.maxRunning_eq (fun hinline => hwaiting (h.inline_nil hinline))
    h.running_le hdispatch

theorem add (h : Bounded batchWork maxRunning queue) {job : ι} {expected : Nat}
    (hadd : (Queue.add work job expected).runFrom queue = (.ok (), next)) :
    Bounded batchWork maxRunning next := by
  by_cases hinline : queue.maxRunning = 0
  · obtain ⟨_, _, -, rfl⟩ := (add_ok_iff_of_inline hinline).mp hadd
    exact ⟨h.batchWork_eq, h.maxRunning_eq, h.running_le, h.openWork_lt, h.inline_nil⟩
  · have hpos : maxRunning ≠ 0 := h.maxRunning_eq ▸ hinline
    have hadd := (add_ok_iff_of_batched hinline).mp hadd
    split at hadd
    · refine of_dispatch ?_ ?_ hpos ?_ hadd
      · exact h.batchWork_eq
      · exact h.maxRunning_eq
      · exact h.running_le
    · rename_i hroom
      subst hadd
      exact ⟨h.batchWork_eq, h.maxRunning_eq, h.running_le,
        h.batchWork_eq ▸ Nat.lt_of_not_le hroom, fun hinline => absurd hinline hpos⟩

end Bounded

theorem Accounts.add {target : τ} {submitted : List (ι × Nat)} {places : Places ι}
    {batchWork maxRunning : Nat} (h : Accounts work target submitted queue places)
    (hbounded : Bounded batchWork maxRunning queue) {job : ι} {expected : Nat}
    (hadd : (Queue.add work job expected).runFrom queue = (.ok (), next)) :
    ∃ places, Accounts work target (submitted ++ [(job, expected)]) next places := by
  by_cases hinline : queue.maxRunning = 0
  · -- Nothing runs and nothing waits, so the job is the next to be committed.
    obtain ⟨outcomes, last, hperforms, rfl⟩ := (add_ok_iff_of_inline hinline).mp hadd
    have hzero := hbounded.maxRunning_eq.symm.trans hinline
    have hrunning := h.running_eq.symm.trans (hbounded.running_nil hzero)
    have hwaiting := h.openBatch_eq.symm.trans (hbounded.inline_nil hzero)
    obtain ⟨committed, running, waiting⟩ := places
    obtain rfl : running = [] := List.map_eq_nil_iff.mp hrunning
    obtain rfl : waiting = [] := List.map_eq_nil_iff.mp hwaiting
    obtain ⟨before, hbefore⟩ := h.performs
    refine ⟨⟨committed ++ [(job, expected)], [], []⟩, ?_, h.running_eq, h.openBatch_eq,
      h.openWork_eq, before ++ outcomes, ?_⟩
    · rw [← h.inOrder_eq]
      simp only [Places.inOrder, List.flatten_nil, List.append_nil]
    · rw [List.map_append]
      exact hbefore.append hperforms
  · have hadd := (add_ok_iff_of_batched hinline).mp hadd
    split at hadd
    · exact (h.pushed job expected).dispatch hadd
    · subst hadd
      exact ⟨_, h.pushed job expected⟩

/-! ## Reachable states -/

/-- The states that calls which succeeded lead to, each with the jobs that were submitted.
To complete a queue is to dispatch its open batch and to join what runs, so the states on
the way are among them. -/
inductive Reachable (work : Work ι κ τ) (first : Queue ι τ) :
    List (ι × Nat) → Queue ι τ → Prop where
  | start : Reachable work first [] first
  | added {submitted : List (ι × Nat)} {queue next : Queue ι τ} {job : ι} {expected : Nat}
      (before : Reachable work first submitted queue)
      (ok : (add work job expected).runFrom queue = (.ok (), next)) :
      Reachable work first (submitted ++ [(job, expected)]) next
  | dispatched {submitted : List (ι × Nat)} {queue next : Queue ι τ}
      (before : Reachable work first submitted queue) (waiting : queue.openBatch ≠ [])
      (ok : (dispatch work).runFrom queue = (.ok (), next)) : Reachable work first submitted next
  | joined {submitted : List (ι × Nat)} {queue next : Queue ι τ}
      (before : Reachable work first submitted queue)
      (ok : (join work).runFrom queue = (.ok (), next)) : Reachable work first submitted next

/-- Every step keeps account of the jobs. -/
theorem Reachable.accounts {target : τ} {batchWork maxRunning : Nat} {submitted : List (ι × Nat)}
    (h : Reachable work (Queue.start target batchWork maxRunning) submitted queue) :
    Bounded batchWork maxRunning queue ∧ ∃ places, Accounts work target submitted queue places := by
  induction h with
  | start => exact ⟨.start target batchWork maxRunning, _, .start work target batchWork maxRunning⟩
  | added _ ok ih =>
      obtain ⟨hbounded, places, haccounts⟩ := ih
      exact ⟨hbounded.add ok, haccounts.add hbounded ok⟩
  | dispatched _ waiting ok ih =>
      obtain ⟨hbounded, places, haccounts⟩ := ih
      exact ⟨hbounded.dispatch waiting ok, haccounts.dispatch ok⟩
  | joined _ ok ih =>
      obtain ⟨hbounded, places, haccounts⟩ := ih
      exact ⟨hbounded.join ok, haccounts.join ok⟩

/-! ## Runs -/

/-- Adds jobs in order, each with its expected work. -/
def addAll (work : Work ι κ τ) (jobs : List (ι × Nat)) : Attempt (Queue ι τ) Unit :=
  jobs.forM fun job => add work job.1 job.2

/-- Adds jobs in order and completes the queue. -/
def runAll (work : Work ι κ τ) (jobs : List (ι × Nat)) : Attempt (Queue ι τ) Unit := do
  addAll work jobs
  complete work

namespace Reachable

variable {first : Queue ι τ} {submitted jobs : List (ι × Nat)}

theorem addAll (h : Reachable work first submitted queue)
    (hadd : (Queue.addAll work jobs).runFrom queue = (.ok (), next)) :
    Reachable work first (submitted ++ jobs) next := by
  induction jobs generalizing submitted queue with
  | nil =>
      obtain rfl : queue = next := congrArg Prod.snd hadd
      rw [List.append_nil]
      exact h
  | cons job jobs ih =>
      rw [Queue.addAll, List.forM] at hadd
      obtain ⟨_, added, hjob, hrest⟩ := Attempt.of_runFrom_bind hadd
      rw [List.append_cons]
      exact ih (h.added hjob) hrest

/-- Each join takes a batch from those that run, if there is one. -/
theorem joins (h : Reachable work first submitted queue) {batches : List (List ι)}
    (hjoins : (batches.forM fun _ => Queue.join work).runFrom queue = (.ok (), next)) :
    Reachable work first submitted next ∧ next.openBatch = queue.openBatch ∧
      next.running.length = queue.running.length - batches.length := by
  induction batches generalizing queue with
  | nil =>
      obtain rfl : queue = next := congrArg Prod.snd hjoins
      exact ⟨h, rfl, rfl⟩
  | cons batch batches ih =>
      rw [List.forM] at hjoins
      obtain ⟨_, joined, hjoin, hrest⟩ := Attempt.of_runFrom_bind hjoins
      obtain ⟨-, -, hopen, -, hlength⟩ := Bounded.of_join hjoin
      obtain ⟨hreachable, hopen', hlength'⟩ := ih (h.joined hjoin) hrest
      exact ⟨hreachable, hopen'.trans hopen, by rw [List.length_cons]; omega⟩

/-- Nothing is left when a queue is complete. -/
theorem complete (h : Reachable work first submitted queue)
    (hcomplete : (Queue.complete work).runFrom queue = (.ok (), next)) :
    Reachable work first submitted next ∧ next.running = [] ∧ next.openBatch = [] := by
  obtain ⟨full, hfull, hjoins⟩ := complete_ok_iff.mp hcomplete
  have hempty : Reachable work first submitted full ∧ full.openBatch = [] := by
    split at hfull
    · rename_i hnil
      subst hfull
      exact ⟨h, hnil⟩
    · rename_i hwaiting
      obtain ⟨roomy, -, rfl⟩ := dispatch_ok_iff.mp hfull
      exact ⟨h.dispatched hwaiting hfull, rfl⟩
  obtain ⟨hreachable, hopen, hlength⟩ := hempty.1.joins hjoins
  exact ⟨hreachable, List.length_eq_zero_iff.mp (by omega), hopen.trans hempty.2⟩

end Reachable

/-- What is left can be performed: the jobs that run, those that wait, and some that are
still to be submitted. -/
def Pending (work : Work ι κ τ) (queue : Queue ι τ) (more : List ι) (last : τ) : Prop :=
  ∃ outcomes, work.Performs queue.target (queue.running.flatten ++ queue.openBatch ++ more)
    outcomes last

namespace Pending

variable {batchWork maxRunning : Nat} {job : ι} {more : List ι} {last : τ}

theorem join (h : Pending work queue more last) :
    ∃ next, (Queue.join work).runFrom queue = (.ok (), next) ∧ Pending work next more last := by
  cases hrunning : queue.running with
  | nil => exact ⟨queue, join_ok_iff.mpr (.inl ⟨hrunning, rfl⟩), h⟩
  | cons batch running =>
      obtain ⟨outcomes, hperforms⟩ := h
      rw [hrunning, List.flatten_cons, List.append_assoc, List.append_assoc] at hperforms
      obtain ⟨front, back, middle, -, hfront, hback⟩ := hperforms.of_append
      refine ⟨{ queue with running, target := middle },
        join_ok_iff.mpr (.inr ⟨batch, running, front, middle, hrunning, hfront, rfl⟩), back, ?_⟩
      rw [List.append_assoc]
      exact hback

theorem dispatch (h : Pending work queue more last) :
    ∃ next, (Queue.dispatch work).runFrom queue = (.ok (), next) ∧ Pending work next more last := by
  obtain ⟨roomy, hroomy, outcomes, hperforms⟩ : ∃ roomy,
      (if queue.maxRunning ≤ queue.running.length
        then (Queue.join work).runFrom queue = (.ok (), roomy) else roomy = queue) ∧
      Pending work roomy more last := by
    split
    · exact h.join
    · exact ⟨queue, rfl, h⟩
  refine ⟨roomy.dispatched, dispatch_ok_iff.mpr ⟨roomy, hroomy, rfl⟩, outcomes, ?_⟩
  rw [dispatched, List.flatten_append, List.flatten_singleton, List.append_nil]
  exact hperforms

theorem add (h : Pending work queue (job :: more) last)
    (hbounded : Bounded batchWork maxRunning queue) (expected : Nat) :
    ∃ next, (Queue.add work job expected).runFrom queue = (.ok (), next) ∧
      Pending work next more last := by
  by_cases hinline : queue.maxRunning = 0
  · obtain ⟨outcomes, hperforms⟩ := h
    have hzero := hbounded.maxRunning_eq.symm.trans hinline
    have hrunning := hbounded.running_nil hzero
    have hopen := hbounded.inline_nil hzero
    rw [hrunning, hopen] at hperforms
    have hperforms : work.Performs queue.target ([job] ++ more) outcomes last := hperforms
    obtain ⟨front, back, middle, -, hfront, hback⟩ := hperforms.of_append
    refine ⟨{ queue with target := middle },
      (add_ok_iff_of_inline hinline).mpr ⟨front, middle, hfront, rfl⟩, back, ?_⟩
    rw [hrunning, hopen]
    exact hback
  · have hpushed : Pending work (queue.pushed job expected) more last := by
      obtain ⟨outcomes, hperforms⟩ := h
      refine ⟨outcomes, ?_⟩
      rw [List.append_cons, List.append_assoc _ _ [job]] at hperforms
      exact hperforms
    by_cases hfilled : queue.batchWork ≤ (queue.openWork + expected) % 2 ^ 64
    · obtain ⟨next, hdispatch, hpending⟩ := hpushed.dispatch
      refine ⟨next, (add_ok_iff_of_batched hinline).mpr ?_, hpending⟩
      rw [if_pos hfilled]
      exact hdispatch
    · refine ⟨_, (add_ok_iff_of_batched hinline).mpr ?_, hpushed⟩
      rw [if_neg hfilled]

theorem addAll {jobs : List (ι × Nat)} (h : Pending work queue (jobs.map Prod.fst ++ more) last)
    (hbounded : Bounded batchWork maxRunning queue) :
    ∃ next, (Queue.addAll work jobs).runFrom queue = (.ok (), next) ∧
      Pending work next more last := by
  induction jobs generalizing queue with
  | nil => exact ⟨queue, rfl, h⟩
  | cons job jobs ih =>
      obtain ⟨added, hadd, hpending⟩ := h.add hbounded job.2
      obtain ⟨next, hrest, hpending⟩ := ih hpending (hbounded.add hadd)
      refine ⟨next, ?_, hpending⟩
      rw [Queue.addAll, List.forM, Attempt.runFrom_bind, hadd]
      exact hrest

theorem joins (h : Pending work queue more last) (batches : List (List ι)) :
    ∃ next, (batches.forM fun _ => Queue.join work).runFrom queue = (.ok (), next) ∧
      Pending work next more last := by
  induction batches generalizing queue with
  | nil => exact ⟨queue, rfl, h⟩
  | cons batch batches ih =>
      obtain ⟨joined, hjoin, hpending⟩ := h.join
      obtain ⟨next, hrest, hpending⟩ := ih hpending
      refine ⟨next, ?_, hpending⟩
      rw [List.forM, Attempt.runFrom_bind, hjoin]
      exact hrest

theorem complete (h : Pending work queue more last) :
    ∃ next, (Queue.complete work).runFrom queue = (.ok (), next) ∧ Pending work next more last := by
  obtain ⟨full, hfull, hpending⟩ : ∃ full,
      (if queue.openBatch = [] then full = queue
        else (Queue.dispatch work).runFrom queue = (.ok (), full)) ∧
      Pending work full more last := by
    split
    · exact ⟨queue, rfl, h⟩
    · exact h.dispatch
  obtain ⟨next, hjoins, hpending⟩ := hpending.joins full.running
  exact ⟨next, complete_ok_iff.mpr ⟨full, hfull, hjoins⟩, hpending⟩

end Pending

/-! ## Conservation -/

variable {target last : τ} {batchWork maxRunning : Nat} {jobs : List (ι × Nat)}

/-- A run that succeeded leaves a state that calls lead to, and nothing in it is left to be
done. -/
theorem of_runAll
    (h : (runAll work jobs).runFrom (start target batchWork maxRunning) = (.ok (), queue)) :
    Reachable work (start target batchWork maxRunning) jobs queue ∧ queue.running = [] ∧
      queue.openBatch = [] := by
  rw [runAll] at h
  obtain ⟨_, added, hadd, hcomplete⟩ := Attempt.of_runFrom_bind h
  exact (Reachable.start.addAll hadd).complete hcomplete

/-- **A run succeeds exactly when its jobs can be performed**, however they are batched, and
then it leaves the target that performing them leaves. -/
theorem exists_runAll_iff :
    (∃ queue, (runAll work jobs).runFrom (start target batchWork maxRunning) = (.ok (), queue) ∧
      queue.target = last) ↔
        ∃ outcomes, work.Performs target (jobs.map Prod.fst) outcomes last := by
  constructor
  · rintro ⟨queue, hrun, rfl⟩
    obtain ⟨hreachable, hrunning, hopen⟩ := of_runAll hrun
    obtain ⟨-, ⟨committed, running, waiting⟩, haccounts⟩ := hreachable.accounts
    obtain rfl : running = [] := List.map_eq_nil_iff.mp (haccounts.running_eq.symm.trans hrunning)
    obtain rfl : waiting = [] := List.map_eq_nil_iff.mp (haccounts.openBatch_eq.symm.trans hopen)
    have hall := haccounts.inOrder_eq
    rw [Places.inOrder, List.flatten_nil, List.append_nil, List.append_nil] at hall
    rw [← hall]
    exact haccounts.performs
  · rintro ⟨outcomes, hperforms⟩
    have hpending : Pending work (start target batchWork maxRunning)
        (jobs.map Prod.fst ++ []) last :=
      ⟨outcomes, by rw [List.append_nil]; exact hperforms⟩
    obtain ⟨added, hadd, hpending⟩ := hpending.addAll (.start target batchWork maxRunning)
    obtain ⟨queue, hcomplete, hpending⟩ := hpending.complete
    have hrun : (runAll work jobs).runFrom (start target batchWork maxRunning) =
        (.ok (), queue) := by
      rw [runAll, Attempt.runFrom_bind, hadd]
      exact hcomplete
    refine ⟨queue, hrun, ?_⟩
    obtain ⟨-, hrunning, hopen⟩ := of_runAll hrun
    obtain ⟨_, hnothing⟩ := hpending
    rw [hrunning, hopen] at hnothing
    cases hnothing
    rfl

/-- **The queue conserves its jobs.** -/
theorem conserves_jobs (work : Work ι κ τ) (target : τ) (batchWork maxRunning : Nat) :
    -- Where the jobs are, in every state that calls which succeeded lead to.
    (∀ submitted queue, Reachable work (start target batchWork maxRunning) submitted queue →
      ∃ committed running waiting outcomes,
        committed ++ List.flatten running ++ waiting = submitted ∧
        queue.running = running.map (·.map Prod.fst) ∧
        queue.openBatch = waiting.map Prod.fst ∧
        queue.openWork = (waiting.map Prod.snd).sum % 2 ^ 64 ∧
        ((submitted.map Prod.snd).sum < 2 ^ 64 →
          queue.openWork = (waiting.map Prod.snd).sum) ∧
        work.Performs target (committed.map Prod.fst) outcomes queue.target ∧
        queue.running.length ≤ maxRunning ∧
        queue.openWork < max batchWork 1) ∧
    -- What a run of calls leaves that ends with completing the queue.
    ∀ jobs queue,
      (runAll work jobs).runFrom (start target batchWork maxRunning) = (.ok (), queue) →
        Reachable work (start target batchWork maxRunning) jobs queue ∧
        queue.running = [] ∧ queue.openBatch = [] ∧
        (∃ outcomes, work.Performs target (jobs.map Prod.fst) outcomes queue.target) ∧
        ∃ inline, (runAll work jobs).runFrom (start target batchWork 0) = (.ok (), inline) ∧
          inline.target = queue.target := by
  refine ⟨fun submitted queue hreachable => ?_, fun jobs queue hrun => ?_⟩
  · obtain ⟨hbounded, ⟨committed, running, waiting⟩, haccounts⟩ := hreachable.accounts
    obtain ⟨outcomes, hperforms⟩ := haccounts.performs
    refine ⟨committed, running, waiting, outcomes, haccounts.inOrder_eq, haccounts.running_eq,
      haccounts.openBatch_eq, haccounts.openWork_eq, fun htotal => ?_, hperforms,
      hbounded.running_le, hbounded.openWork_lt⟩
    rw [← haccounts.inOrder_eq, Places.inOrder, List.map_append, List.sum_append] at htotal
    exact haccounts.openWork_eq.trans
      (Nat.mod_eq_of_lt (Nat.lt_of_le_of_lt (Nat.le_add_left _ _) htotal))
  · obtain ⟨hreachable, hrunning, hopen⟩ := of_runAll hrun
    have hperforms := exists_runAll_iff.mp ⟨queue, hrun, rfl⟩
    exact ⟨hreachable, hrunning, hopen, hperforms, exists_runAll_iff.mpr hperforms⟩

/-- Five jobs in batches of three units of work, of which one may run at a time.  When the
last of them fills the second batch, the first one has to be committed to make room. -/
theorem conserves_jobs_of_five :
    let work : Work Nat Nat (List Nat) :=
      { prepare := fun n => if n = 0 then .error (.invalidOperation "prepare") else .ok (n * n)
        commit := fun square => modify (· ++ [square]) }
    let jobs : List (Nat × Nat) := [(5, 1), (2, 2), (3, 0), (4, 1), (6, 2)]
    (∃ queue, Reachable work (start [] 3 1) jobs queue ∧ queue.target = [25, 4] ∧
      queue.running = [[3, 4, 6]] ∧ queue.running.length ≤ 1 ∧ queue.openWork < 3) ∧
    ∃ queue inline, (runAll work jobs).runFrom (start [] 3 1) = (.ok (), queue) ∧
      queue.target = [25, 4, 9, 16, 36] ∧
      (runAll work jobs).runFrom (start [] 3 0) = (.ok (), inline) ∧
      inline.target = [25, 4, 9, 16, 36] := by
  intro work jobs
  obtain ⟨hreach, hruns⟩ := conserves_jobs work [] 3 1
  refine ⟨?_, ?_⟩
  · have hreachable : Reachable work (start [] 3 1) jobs _ :=
      Reachable.start.addAll (Prod.ext (by rfl) (by rfl))
    obtain ⟨_, _, _, _, -, -, -, -, -, -, hlength, hopen⟩ := hreach jobs _ hreachable
    exact ⟨_, hreachable, by rfl, by rfl, hlength, hopen⟩
  · have hrun : (runAll work jobs).runFrom (start [] 3 1) = (.ok (), _) :=
      Prod.ext (by rfl) (by rfl)
    obtain ⟨-, -, -, -, inline, hinline, hsame⟩ := hruns jobs _ hrun
    exact ⟨_, inline, hrun, by rfl, hinline, hsame.trans (by rfl)⟩

end Queue
end Postings
