import Postings.Proofs.Work.Joined

/-!
# Runs with jobs that are refused

A run that stops at the first refusal does not depend on how its jobs are batched.  The
first job that is not prepared is in the first batch that is not sound, and batches are
joined oldest first, so its error is the one that comes up, if later than without batches;
what is committed by then is a prefix of the jobs before it.

A run that goes on after refusals is another matter.  Without batches a call is refused for
its own job, and what is committed is what was accepted.  With batches a call is refused for
the batch that it joined to make room: its own job waits in the open batch and is committed
later, and the jobs of the batch, which were accepted, are dropped with it.  The count is
right, as a call is refused for each batch that is dropped, but not the jobs.
-/

namespace Postings

variable {ι κ τ : Type}

namespace Queue

variable {work : Work ι κ τ} {queue next : Queue ι τ} {target : τ} {submitted : List ι}
  {joined : List (List ι)} {jobs : List (ι × Nat)} {batchWork maxRunning : Nat} {e : Error}

/-! ## Runs that stop -/

/-- What was submitted when adding stops is a prefix of the jobs. -/
theorem Ledger.addAll (h : Ledger work target maxRunning submitted joined queue)
    (hcommits : ∀ job ∈ jobs, work.Commits job.1) :
    ∃ taken, taken <+: jobs.map Prod.fst ∧
      Books work target maxRunning (submitted ++ taken) joined
        ((Queue.addAll work jobs).runFrom queue) := by
  induction jobs generalizing submitted joined queue with
  | nil => exact ⟨[], List.nil_prefix, by rw [List.append_nil]; exact h.books⟩
  | cons job jobs ih =>
      obtain ⟨hjob, hjobs⟩ := List.forall_mem_cons.mp hcommits
      have hadd := h.add hjob job.2
      rw [Queue.addAll, List.forM, Attempt.runFrom_bind]
      generalize (Queue.add work job.1 job.2).runFrom queue = result at hadd
      obtain ⟨answer, next⟩ := result
      obtain ⟨batches, hsettles, hledger⟩ := hadd
      cases hsettles with
      | accepted sound =>
          obtain ⟨taken, htaken, more, hmore, hlast⟩ := ih hledger hjobs
          refine ⟨job.1 :: taken, (List.prefix_cons_inj job.1).mpr htaken, batches ++ more,
            hmore.append sound, ?_⟩
          rw [← List.append_assoc joined, List.append_cons]
          exact hlast
      | refused sound refused =>
          exact ⟨[job.1], ⟨jobs.map Prod.fst, rfl⟩, _, .refused sound refused, hledger⟩

theorem books_runAll (hcommits : ∀ job ∈ jobs, work.Commits job.1) (target : τ)
    (batchWork maxRunning : Nat) :
    ∃ taken, taken <+: jobs.map Prod.fst ∧
      Books work target maxRunning taken []
        ((runAll work jobs).runFrom (start target batchWork maxRunning)) := by
  obtain ⟨taken, htaken, hbooks⟩ :=
    (Ledger.start work target batchWork maxRunning).addAll hcommits
  exact ⟨taken, htaken, hbooks.bind fun _ _ hnext => hnext.complete⟩

/-- A run that is refused is refused for the first job that is not prepared, and some of
those before it were committed. -/
theorem of_runAll_refused (hcommits : ∀ job ∈ jobs, work.Commits job.1)
    (hrun : (runAll work jobs).runFrom (start target batchWork maxRunning) = (.error e, queue)) :
    ∃ front job back, jobs.map Prod.fst = front ++ job :: back ∧ work.sound front = true ∧
      work.prepare job = .error e ∧ ∃ committed outcomes, committed <+: front ∧
        work.Performs target committed outcomes queue.target := by
  obtain ⟨taken, ⟨rest, hrest⟩, batches, hsettles, hledger⟩ :=
    books_runAll hcommits target batchWork maxRunning
  rw [hrun] at hsettles hledger
  cases hsettles with
  | @refused before batch _ sound refused =>
      -- The batches before this one are sound, so its first job that is not prepared is the
      -- first of all.
      obtain ⟨front, job, back, rfl, hfront, hjob⟩ := exists_refused refused
      obtain ⟨outcomes, hperforms⟩ := hledger.performs
      rw [List.nil_append, filter_append_refused refused,
        List.filter_eq_self.mpr (List.all_eq_true.mp sound)] at hperforms
      have hall := hledger.inOrder_eq
      refine ⟨before.flatten ++ front, job,
        back ++ (queue.running.flatten ++ queue.openBatch ++ rest), ?_, ?_, hjob, before.flatten,
        outcomes, List.prefix_append _ _, hperforms⟩
      · rw [← hrest, ← hall]
        simp
      · rw [Work.sound_append, Work.sound_flatten, sound, hfront]
        rfl

/-- **A run answers as its jobs are prepared**, however they are batched. -/
theorem runAll_answer (hcommits : ∀ job ∈ jobs, work.Commits job.1) (target : τ)
    (batchWork maxRunning : Nat) :
    ((runAll work jobs).runFrom (start target batchWork maxRunning)).1 =
      (prepareAll work (jobs.map Prod.fst)).map fun _ => () := by
  cases hrun : (runAll work jobs).runFrom (start target batchWork maxRunning) with
  | mk answer queue =>
      cases answer with
      | ok =>
          obtain ⟨outcomes, hperforms⟩ := exists_runAll_iff.mp ⟨queue, hrun, rfl⟩
          rw [prepareAll_of_performs hperforms]
          rfl
      | error e =>
          obtain ⟨front, job, back, hjobs, hfront, hjob, -⟩ := of_runAll_refused hcommits hrun
          obtain ⟨outcomes, hprepared⟩ := exists_prepareAll hfront
          rw [hjobs, prepareAll_append, hprepared, prepareAll, List.mapM_cons, hjob]
          rfl

/-- **Refusals do not depend on batching.** -/
theorem refusal_of_batching (work : Work ι κ τ) (hcommits : ∀ job ∈ jobs, work.Commits job.1)
    (target : τ) (batchWork maxRunning : Nat) :
    let batched := (runAll work jobs).runFrom (start target batchWork maxRunning)
    let inline := (runAll work jobs).runFrom (start target batchWork 0)
    batched.1 = inline.1 ∧
    (batched.1 = .ok () → batched.2.target = inline.2.target) ∧
    -- The error, and what is committed when it comes up.
    ∀ e, batched.1 = .error e →
      ∃ front job back, jobs.map Prod.fst = front ++ job :: back ∧
        (∀ early ∈ front, ∃ prepared, work.prepare early = .ok prepared) ∧
        work.prepare job = .error e ∧
        ∃ committed outcomes, committed <+: front ∧
          work.Performs target committed outcomes batched.2.target := by
  intro batched inline
  have hsame : batched.1 = inline.1 :=
    (runAll_answer hcommits target batchWork maxRunning).trans
      (runAll_answer hcommits target batchWork 0).symm
  refine ⟨hsame, fun hok => ?_, fun e he => ?_⟩
  · have hrun : batched = (.ok (), batched.2) := Prod.ext hok rfl
    obtain ⟨queue, hinline, htarget⟩ : ∃ queue, inline = (.ok (), queue) ∧
        queue.target = batched.2.target :=
      exists_runAll_iff.mpr (exists_runAll_iff.mp ⟨batched.2, hrun, rfl⟩)
    rw [hinline]
    exact htarget.symm
  · have hrun : batched = (.error e, batched.2) := Prod.ext he rfl
    obtain ⟨front, job, back, hjobs, hfront, hjob, hcommitted⟩ := of_runAll_refused hcommits hrun
    refine ⟨front, job, back, hjobs, fun early hearly => ?_, hjob, hcommitted⟩
    have hisOk := List.all_eq_true.mp hfront early hearly
    cases hprepared : work.prepare early with
    | error e' =>
        rw [hprepared] at hisOk
        cases hisOk
    | ok prepared => exact ⟨prepared, rfl⟩

/-- Six jobs in batches of three units of work, of which one may run at a time.  The
second batch is dropped when the queue is completed, for the second of its jobs; without
batches the first of them is committed, and the second is refused when it is added. -/
theorem refusal_of_batching_of_six :
    let work : Work Nat Nat (List Nat) :=
      { prepare := fun n => if n = 0 then .error (.invalidOperation "prepare") else .ok (n * n)
        commit := fun square => modify (· ++ [square]) }
    let jobs : List (Nat × Nat) := [(5, 1), (2, 2), (3, 1), (0, 1), (4, 1), (6, 2)]
    let batched := (runAll work jobs).runFrom (start [] 3 1)
    let inline := (runAll work jobs).runFrom (start [] 3 0)
    (∀ job ∈ jobs, work.Commits job.1) ∧
    batched.1 = .error (.invalidOperation "prepare") ∧
    inline.1 = .error (.invalidOperation "prepare") ∧
    batched.2.target = [25, 4] ∧ inline.2.target = [25, 4, 9] ∧
    ∃ front job back, jobs.map Prod.fst = front ++ job :: back ∧
      (∀ early ∈ front, ∃ prepared, work.prepare early = .ok prepared) ∧
      work.prepare job = .error (.invalidOperation "prepare") ∧
      ∃ committed outcomes, committed <+: front ∧
        work.Performs [] committed outcomes batched.2.target := by
  intro work jobs batched inline
  have hcommits : ∀ job ∈ jobs, work.Commits job.1 := fun _ _ _ _ _ => rfl
  obtain ⟨hsame, -, hrefused⟩ := refusal_of_batching work hcommits [] 3 1
  have hbatched : batched.1 = .error (.invalidOperation "prepare") := by rfl
  exact ⟨hcommits, hbatched, hsame.symm.trans hbatched, by rfl, by rfl, hrefused _ hbatched⟩

/-! ## Runs that go on -/

/-- A call: what it answers, and the queue that it leaves. -/
def call (work : Work ι κ τ) (queue : Queue ι τ) (job : ι × Nat) :
    Except Error Unit × Queue ι τ :=
  (add work job.1 job.2).runFrom queue

/-- The queue after some calls in a row, which go on after refusals. -/
def afterCalls (work : Work ι κ τ) (queue : Queue ι τ) : List (ι × Nat) → Queue ι τ
  | [] => queue
  | job :: jobs => afterCalls work (call work queue job).2 jobs

/-- The jobs whose calls are accepted, of some calls in a row. -/
def accepted (work : Work ι κ τ) (queue : Queue ι τ) : List (ι × Nat) → List ι
  | [] => []
  | job :: jobs =>
      match call work queue job with
      | (.ok (), next) => job.1 :: accepted work next jobs
      | (.error _, next) => accepted work next jobs

theorem accepted_sublist (work : Work ι κ τ) (queue : Queue ι τ) (jobs : List (ι × Nat)) :
    (accepted work queue jobs).Sublist (jobs.map Prod.fst) := by
  induction jobs generalizing queue with
  | nil => exact List.Sublist.slnil
  | cons job jobs ih =>
      rw [accepted, List.map_cons]
      rcases call work queue job with ⟨_ | _, next⟩
      · exact (ih next).cons _
      · exact (ih next).cons_cons _

/-- A call is refused for each batch that is not sound. -/
theorem Ledger.afterCalls (h : Ledger work target maxRunning submitted joined queue)
    (hcommits : ∀ job ∈ jobs, work.Commits job.1) :
    ∃ batches,
      Ledger work target maxRunning (submitted ++ jobs.map Prod.fst) (joined ++ batches)
        (Queue.afterCalls work queue jobs) ∧
      (accepted work queue jobs).length + batches.countP (!work.sound ·) = jobs.length := by
  induction jobs generalizing submitted joined queue with
  | nil => exact ⟨[], by rw [List.map_nil, List.append_nil, List.append_nil]; exact h, rfl⟩
  | cons job jobs ih =>
      obtain ⟨hjob, hjobs⟩ := List.forall_mem_cons.mp hcommits
      have hcall : Books work target maxRunning (submitted ++ [job.1]) joined
          (call work queue job) := h.add hjob job.2
      rw [Queue.afterCalls, accepted, List.map_cons, List.append_cons]
      generalize call work queue job = result at hcall
      obtain ⟨answer, next⟩ := result
      obtain ⟨batches, hsettles, hledger⟩ := hcall
      have hledger : Ledger work target maxRunning (submitted ++ [job.1]) (joined ++ batches)
        next := hledger
      obtain ⟨more, hlast, hcount⟩ := ih hledger hjobs
      refine ⟨batches ++ more, by rw [← List.append_assoc]; exact hlast, ?_⟩
      rw [List.countP_append, hsettles.countP_eq]
      cases answer with
      | ok =>
          change (accepted work next jobs).length + 1 + (0 + _) = jobs.length + 1
          omega
      | error e =>
          change (accepted work next jobs).length + (1 + _) = jobs.length + 1
          omega

/-- With batches, the first refusal is for a job that was accepted. -/
theorem Ledger.not_sound_of_refusal (h : Ledger work target maxRunning submitted joined queue)
    (hcommits : ∀ job ∈ jobs, work.Commits job.1) (hbatched : maxRunning ≠ 0)
    (hsome : (accepted work queue jobs).length ≠ jobs.length) :
    work.sound (submitted ++ accepted work queue jobs) = false := by
  induction jobs generalizing submitted joined queue with
  | nil => exact absurd rfl hsome
  | cons job jobs ih =>
      obtain ⟨hjob, hjobs⟩ := List.forall_mem_cons.mp hcommits
      have hcall : Books work target maxRunning (submitted ++ [job.1]) joined
          (call work queue job) := h.add hjob job.2
      have hrefused : ∀ {e next}, call work queue job = (.error e, next) →
          work.sound submitted = false := h.not_sound_of_add_refused hbatched
      rw [accepted] at hsome ⊢
      generalize call work queue job = result at hsome hcall hrefused
      obtain ⟨answer, next⟩ := result
      cases answer with
      | ok =>
          obtain ⟨batches, -, hledger⟩ := hcall
          change work.sound (submitted ++ job.1 :: accepted work next jobs) = false
          rw [List.append_cons]
          exact ih hledger hjobs fun hall => hsome (congrArg (· + 1) hall)
      | error e =>
          -- Up to here every call was accepted, and the batch is of jobs from before this one.
          rw [Work.sound_append, hrefused rfl]
          rfl

/-- Without batches, what is accepted is performed, and nothing else happens. -/
theorem performs_accepted_of_inline (hinline : queue.maxRunning = 0)
    (hcommits : ∀ job ∈ jobs, work.Commits job.1) :
    ∃ outcomes last, work.Performs queue.target (accepted work queue jobs) outcomes last ∧
      afterCalls work queue jobs = { queue with target := last } := by
  induction jobs generalizing queue with
  | nil => exact ⟨[], queue.target, .nil _, rfl⟩
  | cons job jobs ih =>
      obtain ⟨hjob, hjobs⟩ := List.forall_mem_cons.mp hcommits
      rw [accepted, afterCalls]
      rcases add_outcome_of_inline hinline hjob job.2 with
        ⟨front, middle, hperforms, hadd⟩ | ⟨e, -, hadd⟩
      · rw [show call work queue job = _ from hadd]
        have hnext : ({ queue with target := middle } : Queue ι τ).maxRunning = 0 := hinline
        obtain ⟨outcomes, last, hrest, hafter⟩ := ih hnext hjobs
        exact ⟨_, last, hperforms.append hrest, hafter⟩
      · rw [show call work queue job = _ from hadd]
        exact ih hinline hjobs

/-- When a queue is complete, the jobs were joined in some batches.  The sound ones are
committed, and for each of the others a call was refused. -/
theorem exists_joined (hcommits : ∀ job ∈ jobs, work.Commits job.1)
    (hcomplete : (complete work).runFrom
      (afterCalls work (start target batchWork maxRunning) jobs) = (.ok (), queue)) :
    ∃ (batches : List (List ι)) (outcomes : List κ), batches.flatten = jobs.map Prod.fst ∧
      work.Performs target (batches.filter work.sound).flatten outcomes queue.target ∧
      (accepted work (start target batchWork maxRunning) jobs).length +
        batches.countP (!work.sound ·) = jobs.length := by
  obtain ⟨batches, hledger, hcount⟩ :=
    (Ledger.start work target batchWork maxRunning).afterCalls hcommits
  obtain ⟨more, hsettles, hlast⟩ := hledger.complete
  obtain ⟨-, hrunning, hopen⟩ := Reachable.start.complete hcomplete
  rw [hcomplete] at hsettles hlast
  rw [List.nil_append, List.nil_append] at hlast
  have hall := hlast.inOrder_eq
  rw [hrunning, hopen, List.append_nil, List.append_nil] at hall
  obtain ⟨outcomes, hperforms⟩ := hlast.performs
  refine ⟨batches ++ more, outcomes, hall, hperforms, ?_⟩
  rw [List.countP_append, hsettles.countP_eq]
  exact hcount

/-- **What is committed is what was accepted, exactly without batches or without
refusals.** -/
theorem commits_accepted_iff (work : Work ι κ τ) (target : τ) (batchWork maxRunning : Nat)
    (hcommits : ∀ job ∈ jobs, work.Commits job.1)
    (hcomplete : (complete work).runFrom
      (afterCalls work (start target batchWork maxRunning) jobs) = (.ok (), queue)) :
    -- The batches that were joined: the sound ones are committed, and for each of the others a
    -- call was refused.
    (∃ (batches : List (List ι)) (outcomes : List κ), batches.flatten = jobs.map Prod.fst ∧
      work.Performs target (batches.filter work.sound).flatten outcomes queue.target ∧
      (accepted work (start target batchWork maxRunning) jobs).length +
        batches.countP (!work.sound ·) = jobs.length) ∧
    ((∃ outcomes, work.Performs target (accepted work (start target batchWork maxRunning) jobs)
        outcomes queue.target) ↔
      maxRunning = 0 ∨ work.sound (jobs.map Prod.fst) = true) := by
  obtain ⟨batches, outcomes, hall, hperforms, hcount⟩ := exists_joined hcommits hcomplete
  have hnone_iff : (accepted work (start target batchWork maxRunning) jobs).length = jobs.length ↔
      work.sound (jobs.map Prod.fst) = true := by
    rw [← hall, Work.sound_flatten, ← countP_eq_zero_iff]
    omega
  refine ⟨⟨batches, outcomes, hall, hperforms, hcount⟩, ?_, ?_⟩
  · rintro ⟨_, haccepted⟩
    by_contra hnot
    obtain ⟨hbatched, hunsound⟩ := not_or.mp hnot
    have hfailing := (Ledger.start work target batchWork maxRunning).not_sound_of_refusal hcommits
      hbatched (hnone_iff.not.mpr hunsound)
    rw [List.nil_append, haccepted.sound] at hfailing
    cases hfailing
  · rintro (rfl | hsound)
    · have hinline : (start target batchWork 0 : Queue ι τ).maxRunning = 0 := rfl
      obtain ⟨outcomes, last, haccepted, hafter⟩ := performs_accepted_of_inline hinline hcommits
      rw [hafter] at hcomplete
      obtain rfl : { (start target batchWork 0 : Queue ι τ) with target := last } = queue :=
        congrArg Prod.snd hcomplete
      exact ⟨outcomes, haccepted⟩
    · have hsame := (accepted_sublist work (start target batchWork maxRunning) jobs).eq_of_length
        ((hnone_iff.mpr hsound).trans (List.length_map _).symm)
      rw [← hall, Work.sound_flatten] at hsound
      rw [List.filter_eq_self.mpr (List.all_eq_true.mp hsound), hall, ← hsame] at hperforms
      exact ⟨outcomes, hperforms⟩

/-- Three jobs, of which the second is not prepared.  Without batches it is refused itself;
with batches the third one is, for the batch of the first two. -/
theorem commits_accepted_iff_of_three :
    let work : Work Nat Nat (List Nat) :=
      { prepare := fun n => if n = 0 then .error (.invalidOperation "prepare") else .ok (n * n)
        commit := fun square => modify (· ++ [square]) }
    let jobs : List (Nat × Nat) := [(5, 1), (0, 1), (3, 2)]
    (∀ job ∈ jobs, work.Commits job.1) ∧
    ∃ inline batched,
      (complete work).runFrom (afterCalls work (start [] 2 0) jobs) = (.ok (), inline) ∧
      (complete work).runFrom (afterCalls work (start [] 2 1) jobs) = (.ok (), batched) ∧
      inline.target = [25, 9] ∧ batched.target = [9] ∧
      (∃ outcomes, work.Performs [] [5, 3] outcomes inline.target) ∧
      ¬ ∃ outcomes, work.Performs [] [5, 0] outcomes batched.target := by
  intro work jobs
  have hcommits : ∀ job ∈ jobs, work.Commits job.1 := fun _ _ _ _ _ => rfl
  have hinline : (complete work).runFrom (afterCalls work (start [] 2 0) jobs) = (.ok (), _) :=
    Prod.ext (by rfl) (by rfl)
  have hbatched : (complete work).runFrom (afterCalls work (start [] 2 1) jobs) = (.ok (), _) :=
    Prod.ext (by rfl) (by rfl)
  obtain ⟨-, hsame⟩ := commits_accepted_iff work [] 2 0 hcommits hinline
  obtain ⟨-, hdiffer⟩ := commits_accepted_iff work [] 2 1 hcommits hbatched
  refine ⟨hcommits, _, _, hinline, hbatched, by rfl, by rfl, hsame.mpr (.inl rfl), fun h => ?_⟩
  rcases hdiffer.mp h with hzero | hsound
  · cases hzero
  · exact absurd hsound (by decide)

/-- Two jobs are accepted and dropped, and the one that is refused for them is committed. -/
theorem refused_job_is_committed :
    let work : Work Nat Nat (List Nat) :=
      { prepare := fun n =>
          if n = 20 then .error (.invalidArgument "job" "prepare 20") else .ok (n + 1)
        commit := fun outcome => modify (· ++ [outcome]) }
    let jobs : List (Nat × Nat) := [(10, 1), (20, 1), (30, 2)]
    ∃ queue, (complete work).runFrom (afterCalls work (start [] 2 1) jobs) = (.ok (), queue) ∧
      accepted work (start [] 2 1) jobs = [10, 20] ∧ queue.target = [31] ∧
      ¬ ∃ outcomes, work.Performs [] [10, 20] outcomes queue.target := by
  intro work jobs
  refine ⟨_, Prod.ext (by rfl) (by rfl), by rfl, by rfl, ?_⟩
  rintro ⟨outcomes, hperforms⟩
  exact absurd hperforms.sound (by decide)

end Queue
end Postings
