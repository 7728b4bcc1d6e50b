import Postings.Proofs.Work.Queue

/-!
# What was joined

A job whose commits succeed can still be refused: it may not be prepared.  The queue
hears of that when the batch of the job is joined.  Nothing of the batch is committed
then, the batch is gone, and the call that joined it is refused, with the error of the
first job of the batch that is not prepared.

So a queue is accounted for by the batches that were joined so far.  They hold, with those
that run and the open one behind them, every job that was submitted, also after calls
that were refused; and the *sound* ones, whose jobs are all prepared, are what was
performed on the target.  Each call settles some batches more, and its answer tells
whether they are sound.
-/

namespace Postings

variable {ι κ τ : Type}

/-! ## Jobs that commit -/

namespace Work

variable {work : Work ι κ τ}

/-- A job commits on every target, if it is prepared. -/
def Commits (work : Work ι κ τ) (job : ι) : Prop :=
  ∀ prepared, work.prepare job = .ok prepared →
    ∀ target, ((work.commit prepared).runFrom target).1 = .ok ()

/-- Every job of a batch is prepared. -/
def sound (work : Work ι κ τ) (batch : List ι) : Bool :=
  batch.all fun job => (work.prepare job).isOk

theorem sound_cons_of_ok {job : ι} {prepared : κ} (h : work.prepare job = .ok prepared)
    (jobs : List ι) : work.sound (job :: jobs) = work.sound jobs := by
  rw [sound, List.all_cons, h]
  rfl

theorem sound_append (front back : List ι) :
    work.sound (front ++ back) = (work.sound front && work.sound back) :=
  List.all_append

theorem sound_flatten (batches : List (List ι)) :
    work.sound batches.flatten = batches.all work.sound :=
  List.all_flatten

theorem Performs.sound {target last : τ} {jobs : List ι} {outcomes : List κ}
    (h : work.Performs target jobs outcomes last) : work.sound jobs = true := by
  induction h with
  | nil => rfl
  | cons prepares _ _ ih =>
      rw [sound_cons_of_ok prepares]
      exact ih

/-- What is sound and commits is performed. -/
theorem exists_performs {jobs : List ι} (hcommits : ∀ job ∈ jobs, work.Commits job)
    (hsound : work.sound jobs = true) (target : τ) :
    ∃ outcomes last, work.Performs target jobs outcomes last := by
  induction jobs generalizing target with
  | nil => exact ⟨[], target, .nil target⟩
  | cons job jobs ih =>
      obtain ⟨hjob, hjobs⟩ := List.forall_mem_cons.mp hcommits
      cases hprepared : work.prepare job with
      | error e =>
          rw [sound, List.all_cons, hprepared] at hsound
          cases hsound
      | ok prepared =>
          rw [sound_cons_of_ok hprepared] at hsound
          obtain ⟨outcomes, last, hrest⟩ :=
            ih hjobs hsound ((work.commit prepared).runFrom target).2
          exact ⟨_, last, .cons hprepared (Prod.ext (hjob prepared hprepared target) rfl) hrest⟩

end Work

namespace Queue

variable {work : Work ι κ τ} {queue next : Queue ι τ} {target : τ} {batch submitted : List ι}
  {batches joined more : List (List ι)} {answer : Except Error Unit} {e : Error}
  {maxRunning : Nat}

/-- A batch is prepared if it is sound. -/
theorem isOk_prepareAll (work : Work ι κ τ) (batch : List ι) :
    (prepareAll work batch).isOk = work.sound batch := by
  induction batch with
  | nil => rfl
  | cons job batch ih =>
      rw [prepareAll] at ih ⊢
      rw [List.mapM_cons, Work.sound, List.all_cons, ← Work.sound, ← ih]
      cases work.prepare job with
      | error e => rfl
      | ok prepared => cases batch.mapM work.prepare <;> rfl

theorem not_sound_of_prepareAll (h : prepareAll work batch = .error e) :
    work.sound batch = false := by
  rw [← isOk_prepareAll, h]
  rfl

theorem exists_prepareAll (h : work.sound batch = true) :
    ∃ outcomes, prepareAll work batch = .ok outcomes := by
  rw [← isOk_prepareAll] at h
  cases hprepared : prepareAll work batch with
  | error e =>
      rw [hprepared] at h
      cases h
  | ok outcomes => exact ⟨outcomes, rfl⟩

theorem prepareAll_append (front back : List ι) :
    prepareAll work (front ++ back) = (do
      let prepared ← prepareAll work front
      let others ← prepareAll work back
      return prepared ++ others) :=
  List.mapM_append

/-- The error of a batch is that of its first job that is not prepared. -/
theorem exists_refused (h : prepareAll work batch = .error e) :
    ∃ front job back, batch = front ++ job :: back ∧ work.sound front = true ∧
      work.prepare job = .error e := by
  induction batch with
  | nil => cases h
  | cons job batch ih =>
      rw [prepareAll, List.mapM_cons] at h
      cases hjob : work.prepare job with
      | error e' =>
          rw [hjob] at h
          obtain rfl : e' = e := Except.error.inj h
          exact ⟨[], job, batch, rfl, rfl, hjob⟩
      | ok prepared =>
          rw [hjob] at h
          cases hrest : batch.mapM work.prepare with
          | error e' =>
              rw [hrest] at h
              obtain rfl : e' = e := Except.error.inj h
              obtain ⟨front, later, back, rfl, hfront, hlater⟩ := ih hrest
              exact ⟨job :: front, later, back, rfl,
                (Work.sound_cons_of_ok hjob front).trans hfront, hlater⟩
          | ok outcomes =>
              rw [hrest] at h
              cases h

/-! ## What a call answers and leaves -/

/-- What joining a queue answers and leaves. -/
inductive Joined (work : Work ι κ τ) (queue : Queue ι τ) :
    Except Error Unit × Queue ι τ → Prop where
  | idle (none : queue.running = []) : Joined work queue (.ok (), queue)
  | performed {batch : List ι} {running : List (List ι)} {outcomes : List κ} {target : τ}
      (oldest : queue.running = batch :: running)
      (performs : work.Performs queue.target batch outcomes target) :
      Joined work queue (.ok (), { queue with running, target })
  | dropped {batch : List ι} {running : List (List ι)} {e : Error}
      (oldest : queue.running = batch :: running) (refused : prepareAll work batch = .error e) :
      Joined work queue (.error e, { queue with running })

theorem join_outcome (hcommits : ∀ batch ∈ queue.running, ∀ job ∈ batch, work.Commits job) :
    Joined work queue ((join work).runFrom queue) := by
  cases hrunning : queue.running with
  | nil =>
      rw [join_ok_iff.mpr (.inl ⟨hrunning, rfl⟩)]
      exact .idle hrunning
  | cons batch running =>
      cases hprepared : prepareAll work batch with
      | error e =>
          have hdropped : (join work).runFrom queue = (.error e, { queue with running }) := by
            rw [join, Attempt.runFrom_bind, Attempt.runFrom_get]
            simp only [hrunning, Attempt.runFrom_bind, Attempt.runFrom_modify, runBatch,
              Attempt.runFrom_lift, hprepared]
          rw [hdropped]
          exact .dropped hrunning hprepared
      | ok prepared =>
          have hsound : work.sound batch = true := by
            rw [← isOk_prepareAll, hprepared]
            rfl
          obtain ⟨outcomes, target, hperforms⟩ := Work.exists_performs
            (hcommits batch (by rw [hrunning]; exact List.mem_cons_self)) hsound queue.target
          rw [join_ok_iff.mpr (.inr ⟨batch, running, outcomes, target, hrunning, hperforms, rfl⟩)]
          exact .performed hrunning hperforms

/-- What adding a job to a queue without batches answers and leaves. -/
theorem add_outcome_of_inline {job : ι} (hinline : queue.maxRunning = 0)
    (hcommits : work.Commits job) (expected : Nat) :
    (∃ outcomes target, work.Performs queue.target [job] outcomes target ∧
      (add work job expected).runFrom queue = (.ok (), { queue with target })) ∨
    ∃ e, prepareAll work [job] = .error e ∧
      (add work job expected).runFrom queue = (.error e, queue) := by
  cases hjob : work.prepare job with
  | error e =>
      refine .inr ⟨e, by rw [prepareAll, List.mapM_cons, hjob]; rfl, ?_⟩
      rw [add, Attempt.runFrom_bind, Attempt.runFrom_get]
      simp only [if_pos hinline, Attempt.runFrom_bind, Attempt.runFrom_lift, hjob]
  | ok prepared =>
      obtain ⟨outcomes, target, hperforms⟩ := Work.exists_performs
        (List.forall_mem_singleton.mpr hcommits) (Work.sound_cons_of_ok hjob []) queue.target
      exact .inl ⟨outcomes, target, hperforms,
        (add_ok_iff_of_inline hinline).mpr ⟨outcomes, target, hperforms, rfl⟩⟩

/-! ## Accounts -/

theorem filter_append_refused (hrefused : prepareAll work batch = .error e) :
    (joined ++ [batch]).filter work.sound = joined.filter work.sound := by
  have hnot : ¬ work.sound batch = true := by
    rw [not_sound_of_prepareAll hrefused]
    exact Bool.false_ne_true
  rw [List.filter_append, List.filter_cons_of_neg hnot, List.filter_nil, List.append_nil]

/-- The batches that were joined, with those that run and the open one behind them, are
the jobs that were submitted, and the sound ones were performed on the target. -/
structure Ledger (work : Work ι κ τ) (target : τ) (maxRunning : Nat) (submitted : List ι)
    (joined : List (List ι)) (queue : Queue ι τ) : Prop where
  maxRunning_eq : queue.maxRunning = maxRunning
  commits : ∀ job ∈ submitted, work.Commits job
  inOrder_eq : (joined ++ queue.running).flatten ++ queue.openBatch = submitted
  performs : ∃ outcomes,
    work.Performs target (joined.filter work.sound).flatten outcomes queue.target
  inline_nil : maxRunning = 0 → queue.running = [] ∧ queue.openBatch = []

/-- What a call settles, by its answer.  An accepted call joined sound batches only; a
refused one joined sound batches, and then one that is not prepared. -/
inductive Settles (work : Work ι κ τ) : Except Error Unit → List (List ι) → Prop where
  | accepted {batches : List (List ι)} (sound : batches.all work.sound = true) :
      Settles work (.ok ()) batches
  | refused {batches : List (List ι)} {batch : List ι} {e : Error}
      (sound : batches.all work.sound = true) (refused : prepareAll work batch = .error e) :
      Settles work (.error e) (batches ++ [batch])

/-- What calls in a row settle: the second one is made when the first is accepted. -/
theorem Settles.append (hfirst : batches.all work.sound = true) (h : Settles work answer more) :
    Settles work answer (batches ++ more) := by
  cases h with
  | accepted sound =>
      refine .accepted ?_
      rw [List.all_append, hfirst, sound]
      rfl
  | refused sound refused =>
      rw [← List.append_assoc]
      refine .refused ?_ refused
      rw [List.all_append, hfirst, sound]
      rfl

theorem countP_eq_zero_iff :
    batches.countP (!work.sound ·) = 0 ↔ batches.all work.sound = true := by
  rw [List.countP_eq_zero, List.all_eq_true]
  exact forall₂_congr fun batch _ => by rw [Bool.not_eq_true, Bool.not_eq_false']

/-- A refused call settles one batch that is not sound, and an accepted call none. -/
theorem Settles.countP_eq (h : Settles work answer batches) :
    batches.countP (!work.sound ·) = if answer.isOk then 0 else 1 := by
  cases h with
  | accepted sound => exact countP_eq_zero_iff.mpr sound
  | refused sound refused =>
      rw [List.countP_append, countP_eq_zero_iff.mpr sound, List.countP_singleton,
        not_sound_of_prepareAll refused]
      rfl

/-- A call settles some batches and leaves a queue that is accounted for. -/
def Books (work : Work ι κ τ) (target : τ) (maxRunning : Nat) (submitted : List ι)
    (joined : List (List ι)) (result : Except Error Unit × Queue ι τ) : Prop :=
  ∃ batches, Settles work result.1 batches ∧
    Ledger work target maxRunning submitted (joined ++ batches) result.2

namespace Ledger

theorem start (work : Work ι κ τ) (target : τ) (batchWork maxRunning : Nat) :
    Ledger work target maxRunning [] [] (Queue.start target batchWork maxRunning) where
  maxRunning_eq := rfl
  commits _ hmem := absurd hmem List.not_mem_nil
  inOrder_eq := rfl
  performs := ⟨[], .nil target⟩
  inline_nil _ := ⟨rfl, rfl⟩

variable {job : ι}

theorem mem_of_running (h : Ledger work target maxRunning submitted joined queue)
    (hbatch : batch ∈ queue.running) (hjob : job ∈ batch) : job ∈ submitted := by
  rw [← h.inOrder_eq]
  exact List.mem_append_left _
    (List.mem_flatten.mpr ⟨batch, List.mem_append_right _ hbatch, hjob⟩)

theorem join_outcome (h : Ledger work target maxRunning submitted joined queue) :
    Joined work queue ((Queue.join work).runFrom queue) :=
  Queue.join_outcome fun _ hbatch job hjob => h.commits job (h.mem_of_running hbatch hjob)

theorem commits_append (h : Ledger work target maxRunning submitted joined queue)
    (hjob : work.Commits job) : ∀ other ∈ submitted ++ [job], work.Commits other :=
  List.forall_mem_append.mpr ⟨h.commits, List.forall_mem_singleton.mpr hjob⟩

/-- Where nothing is settled, a call is accepted. -/
theorem books (h : Ledger work target maxRunning submitted joined queue) :
    Books work target maxRunning submitted joined (.ok (), queue) :=
  ⟨[], .accepted rfl, by rw [List.append_nil]; exact h⟩

/-- A sound batch that is joined is performed. -/
theorem performs_sound (h : Ledger work target maxRunning submitted joined queue)
    {outcomes : List κ} {last : τ} (hperforms : work.Performs queue.target batch outcomes last) :
    ∃ outcomes,
      work.Performs target ((joined ++ [batch]).filter work.sound).flatten outcomes last := by
  obtain ⟨before, hbefore⟩ := h.performs
  refine ⟨before ++ outcomes, ?_⟩
  rw [List.filter_append, List.filter_cons_of_pos hperforms.sound, List.filter_nil,
    List.flatten_append, List.flatten_singleton]
  exact hbefore.append hperforms

/-- Of any other batch nothing is. -/
theorem performs_dropped (h : Ledger work target maxRunning submitted joined queue)
    (hrefused : prepareAll work batch = .error e) :
    ∃ outcomes, work.Performs target ((joined ++ [batch]).filter work.sound).flatten outcomes
      queue.target := by
  rw [filter_append_refused hrefused]
  exact h.performs

/-- The oldest batch goes from those that run to those that were joined. -/
theorem join (h : Ledger work target maxRunning submitted joined queue) :
    Books work target maxRunning submitted joined ((Queue.join work).runFrom queue) := by
  have houtcome := h.join_outcome
  generalize (Queue.join work).runFrom queue = result at houtcome
  have hbatched : ∀ {batch running}, queue.running = batch :: running → maxRunning ≠ 0 := by
    intro batch running hrunning hzero
    rw [(h.inline_nil hzero).1] at hrunning
    cases hrunning
  have hinOrder : ∀ {batch running}, queue.running = batch :: running →
      ((joined ++ [batch]) ++ running).flatten ++ queue.openBatch = submitted := by
    intro batch running hrunning
    rw [← h.inOrder_eq, hrunning, List.append_assoc]
    rfl
  cases houtcome with
  | idle => exact h.books
  | @performed batch running outcomes last oldest performs =>
      refine ⟨[batch], .accepted ?_, h.maxRunning_eq, h.commits, hinOrder oldest,
        h.performs_sound performs, fun hzero => absurd hzero (hbatched oldest)⟩
      rw [List.all_cons, performs.sound]
      rfl
  | @dropped batch running e oldest refused =>
      have hsettles : Settles work (.error e) ([] ++ [batch]) := .refused rfl refused
      exact ⟨[batch], hsettles, h.maxRunning_eq, h.commits, hinOrder oldest,
        h.performs_dropped refused, fun hzero => absurd hzero (hbatched oldest)⟩

/-- The open batch becomes the youngest of those that run. -/
theorem dispatched (h : Ledger work target maxRunning submitted joined queue)
    (hbatched : maxRunning ≠ 0) :
    Ledger work target maxRunning submitted joined queue.dispatched where
  maxRunning_eq := h.maxRunning_eq
  commits := h.commits
  inOrder_eq := by
    rw [← h.inOrder_eq, Queue.dispatched, ← List.append_assoc, List.flatten_append,
      List.flatten_singleton, List.append_nil]
  performs := h.performs
  inline_nil hzero := absurd hzero hbatched

theorem dispatch (h : Ledger work target maxRunning submitted joined queue)
    (hbatched : maxRunning ≠ 0) :
    Books work target maxRunning submitted joined ((Queue.dispatch work).runFrom queue) := by
  rw [runFrom_dispatch]
  split
  · have hjoin := h.join
    generalize (Queue.join work).runFrom queue = result at hjoin
    obtain ⟨answer, left⟩ := result
    obtain ⟨batches, hsettles, hledger⟩ := hjoin
    cases hsettles with
    | accepted sound => exact ⟨batches, .accepted sound, hledger.dispatched hbatched⟩
    | refused sound refused => exact ⟨_, .refused sound refused, hledger⟩
  · exact (h.dispatched hbatched).books

/-- A job that is submitted comes last. -/
theorem pushed (h : Ledger work target maxRunning submitted joined queue)
    (hbatched : maxRunning ≠ 0) (hjob : work.Commits job) (expected : Nat) :
    Ledger work target maxRunning (submitted ++ [job]) joined (queue.pushed job expected) where
  maxRunning_eq := h.maxRunning_eq
  commits := h.commits_append hjob
  inOrder_eq := by
    rw [← h.inOrder_eq]
    exact (List.append_assoc _ _ _).symm
  performs := h.performs
  inline_nil hzero := absurd hzero hbatched

theorem add (h : Ledger work target maxRunning submitted joined queue) (hjob : work.Commits job)
    (expected : Nat) :
    Books work target maxRunning (submitted ++ [job]) joined
      ((Queue.add work job expected).runFrom queue) := by
  by_cases hinline : maxRunning = 0
  · -- Nothing runs and nothing waits, so the job is a batch that is joined right away.
    obtain ⟨hrunning, hopen⟩ := h.inline_nil hinline
    have hinOrder : ((joined ++ [[job]]) ++ queue.running).flatten ++ queue.openBatch =
        submitted ++ [job] := by
      rw [← h.inOrder_eq, hrunning, hopen, List.append_nil, List.append_nil, List.append_nil,
        List.append_nil, List.flatten_append]
      rfl
    rcases add_outcome_of_inline (h.maxRunning_eq.trans hinline) hjob expected with
      ⟨outcomes, last, hperforms, hadd⟩ | ⟨e, hrefused, hadd⟩
    · rw [hadd]
      refine ⟨[[job]], .accepted ?_, h.maxRunning_eq, h.commits_append hjob, hinOrder,
        h.performs_sound hperforms, h.inline_nil⟩
      rw [List.all_cons, hperforms.sound]
      rfl
    · rw [hadd]
      have hsettles : Settles work (.error e) ([] ++ [[job]]) := .refused rfl hrefused
      exact ⟨[[job]], hsettles, h.maxRunning_eq, h.commits_append hjob, hinOrder,
        h.performs_dropped hrefused, h.inline_nil⟩
  · rw [runFrom_add_of_batched work (h.maxRunning_eq ▸ hinline)]
    have hpushed := h.pushed hinline hjob expected
    split
    · exact hpushed.dispatch hinline
    · exact hpushed.books

/-- A call is refused for a batch that ran before it, of jobs submitted before. -/
theorem not_sound_of_add_refused (h : Ledger work target maxRunning submitted joined queue)
    (hbatched : maxRunning ≠ 0) {expected : Nat}
    (hadd : (Queue.add work job expected).runFrom queue = (.error e, next)) :
    work.sound submitted = false := by
  rw [runFrom_add_of_batched work (h.maxRunning_eq ▸ hbatched)] at hadd
  split at hadd
  · rw [runFrom_dispatch] at hadd
    split at hadd
    · -- The job waits in the open batch, which joining does not look at.
      have houtcome : Joined work (queue.pushed job expected)
          ((Queue.join work).runFrom (queue.pushed job expected)) :=
        Queue.join_outcome fun _ hbatch other hother =>
          h.commits other (h.mem_of_running hbatch hother)
      generalize (Queue.join work).runFrom (queue.pushed job expected) = result at hadd houtcome
      cases houtcome with
      | idle => cases hadd
      | performed => cases hadd
      | @dropped batch running e' oldest refused =>
          obtain ⟨failing, hfailing, hrefused⟩ :=
            List.all_eq_false.mp (not_sound_of_prepareAll refused)
          have hrunning : batch ∈ (queue.pushed job expected).running := by
            rw [oldest]
            exact List.mem_cons_self
          exact List.all_eq_false.mpr ⟨failing, h.mem_of_running hrunning hfailing, hrefused⟩
    · cases hadd
  · cases hadd

end Ledger

/-- A call after a call that was accepted. -/
theorem Books.bind {x : Attempt (Queue ι τ) Unit} {f : Unit → Attempt (Queue ι τ) Unit}
    (hx : Books work target maxRunning submitted joined (x.runFrom queue))
    (hf : ∀ joined next, Ledger work target maxRunning submitted joined next →
      Books work target maxRunning submitted joined ((f ()).runFrom next)) :
    Books work target maxRunning submitted joined ((x >>= f).runFrom queue) := by
  rw [Attempt.runFrom_bind]
  generalize x.runFrom queue = result at hx
  obtain ⟨answer, next⟩ := result
  obtain ⟨batches, hsettles, hledger⟩ := hx
  cases hsettles with
  | accepted sound =>
      obtain ⟨more, hmore, hlast⟩ := hf _ next hledger
      exact ⟨batches ++ more, hmore.append sound, by rw [← List.append_assoc]; exact hlast⟩
  | refused sound refused => exact ⟨_, .refused sound refused, hledger⟩

namespace Ledger

theorem joins (h : Ledger work target maxRunning submitted joined queue) (batches : List (List ι)) :
    Books work target maxRunning submitted joined
      ((batches.forM fun _ => Queue.join work).runFrom queue) := by
  induction batches generalizing joined queue with
  | nil => exact h.books
  | cons batch batches ih => exact h.join.bind fun _ _ hnext => ih hnext

theorem complete (h : Ledger work target maxRunning submitted joined queue) :
    Books work target maxRunning submitted joined ((Queue.complete work).runFrom queue) := by
  have hrest : ∀ joined next, Ledger work target maxRunning submitted joined next →
      Books work target maxRunning submitted joined (Attempt.runFrom (do
        (← get).running.forM fun _ => Queue.join work) next) :=
    fun _ next hnext => hnext.joins next.running
  rw [Queue.complete, Attempt.runFrom_bind, Attempt.runFrom_get]
  by_cases hempty : queue.openBatch = []
  · simp only [hempty]
    exact hrest joined queue h
  · have hbatched : maxRunning ≠ 0 := fun hzero => hempty (h.inline_nil hzero).2
    simp only [List.isEmpty_iff, hempty, if_false]
    exact (h.dispatch hbatched).bind hrest

end Ledger

end Queue
end Postings
