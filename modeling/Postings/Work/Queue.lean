import Postings.Error
import Postings.Power

/-!
# The construction queue

Jobs have two steps.  A job is *prepared*, which depends on the job alone, and
then *committed* to the target of the queue.  Jobs are gathered in an open batch
until their expected work fills it; then the batch is dispatched, and the batches
that run are joined oldest first.  So jobs are committed in the order in which
they were added, however many batches run at once.

When preparing a job of a batch fails, none of the batch is committed; when
committing one fails, those before it stay committed.  Either way the batch is
gone, and the open batch is kept.
-/

namespace Postings

/-- What a queue does with jobs of type `ι`, prepared as `κ`, over a target `τ`. -/
structure Work (ι κ τ : Type) where
  /-- Prepares a job. -/
  prepare : ι → Except Error κ
  /-- Commits a prepared job to the target. -/
  commit : κ → Attempt τ Unit

/-- A queue of jobs. -/
structure Queue (ι τ : Type) where
  /-- What jobs are committed to. -/
  target : τ
  /-- How many batches may run at once; zero runs every job when it is added. -/
  maxRunning : Nat
  /-- The expected work that fills a batch. -/
  batchWork : Nat
  /-- The jobs that wait for their batch to fill, in order. -/
  openBatch : List ι := []
  /-- Their expected work, in 64 bits. -/
  openWork : Nat := 0
  /-- The dispatched batches, oldest first. -/
  running : List (List ι) := []

namespace Queue

variable {ι κ τ : Type}

/-- A queue without jobs.  A batch holds at least one unit of work. -/
def start (target : τ) (batchWork maxRunning : Nat) : Queue ι τ :=
  { target, maxRunning, batchWork := max batchWork 1 }

/-- Commits a prepared job. -/
def commit (work : Work ι κ τ) (job : κ) : Attempt (Queue ι τ) Unit := do
  let (answer, target) := (work.commit job).runFrom (← get).target
  modify fun queue => { queue with target }
  answer

/-- Prepares all jobs of a batch; the first that fails fails the batch. -/
def prepareAll (work : Work ι κ τ) (batch : List ι) : Except Error (List κ) :=
  batch.mapM work.prepare

/-- Prepares all jobs of a batch, then commits them in order. -/
def runBatch (work : Work ι κ τ) (batch : List ι) : Attempt (Queue ι τ) Unit := do
  let prepared ← prepareAll work batch
  prepared.forM (commit work)

/-- Joins the oldest running batch. -/
def join (work : Work ι κ τ) : Attempt (Queue ι τ) Unit := do
  match (← get).running with
  | [] => return
  | batch :: running =>
      modify fun queue => { queue with running }
      runBatch work batch

/-- Dispatches the open batch, once there is room for it among those that run. -/
def dispatch (work : Work ι κ τ) : Attempt (Queue ι τ) Unit := do
  let queue ← get
  if queue.maxRunning ≤ queue.running.length then join work
  modify fun queue => { queue with
    openBatch := []
    openWork := 0
    running := queue.running ++ [queue.openBatch] }

/-- Adds a job of the given expected work. -/
def add (work : Work ι κ τ) (job : ι) (expected : Nat) : Attempt (Queue ι τ) Unit := do
  if (← get).maxRunning = 0 then
    commit work (← work.prepare job)
  else
    modify fun queue => { queue with
      openBatch := queue.openBatch ++ [job]
      openWork := (queue.openWork + expected) % 2 ^ 64 }
    let queue ← get
    if queue.batchWork ≤ queue.openWork then dispatch work

/-- Runs every job that is left. -/
def complete (work : Work ι κ τ) : Attempt (Queue ι τ) Unit := do
  unless (← get).openBatch.isEmpty do dispatch work
  (← get).running.forM fun _ => join work

end Queue
end Postings
