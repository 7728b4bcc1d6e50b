import Postings.Work.Channel

/-!
# Running tasks on a pool

A pool has a number of workers.  A task goes to an idle one, or runs right away
if all are busy; its outcome waits in a handle until it is joined, and a failure
comes up there.  Handles are joined in the order in which the tasks were given,
so outcomes do not depend on which worker ran what: here every task runs when it
is given.
-/

namespace Postings

/-- The outcome of a task, waiting to be joined. -/
abbrev Handle (ε α : Type) := Channel (Except ε α)

namespace Handle

variable {ε α : Type}

/-- A handle whose task is done. -/
def ready (value : α) : Handle ε α := Channel.ready (.ok value)

/-- The outcome is there. -/
def isReady (handle : Handle ε α) : Bool := handle.isPending? == some false

/-- The outcome of the task, if it has one. -/
def join? (handle : Handle ε α) : Option (Except ε α) :=
  match handle.receive.1 with
  | .received outcome => outcome
  | _ => none

end Handle

/-- A pool of workers. -/
structure Pool where
  /-- The number of workers. -/
  threads : Nat

namespace Pool

variable {ε α β : Type}

/-- A pool of the given degree; it has at least one worker. -/
def ofDegree (degree : Nat) : Pool := ⟨max degree 1⟩

/-- Gives a task to the pool. -/
def spawn (_ : Pool) (task : Except ε α) : Handle ε α := Channel.ready task

/-- The values of all tasks, or the failure of the first that failed. -/
def joinAll (handles : List (Handle ε α)) : Except ε (List α) :=
  (handles.filterMap Handle.join?).mapM id

/-- The values of a function on a list, in the order of the list. -/
def map (pool : Pool) (f : α → Except ε β) (items : List α) : Except ε (List β) :=
  joinAll (items.map fun item => pool.spawn (f item))

/-- The values of two tasks that may run at once. -/
def join (a : Except ε α) (b : Except ε β) : Except ε (α × β) := do
  let b ← b
  return (← a, b)

@[simp] theorem join?_spawn (pool : Pool) (task : Except ε α) :
    (pool.spawn task).join? = some task := rfl

/-- However many workers there are, a map is the map of the list. -/
theorem map_eq_mapM (pool : Pool) (f : α → Except ε β) (items : List α) :
    pool.map f items = items.mapM f := by
  have h : (items.map fun item => pool.spawn (f item)).filterMap Handle.join? = items.map f := by
    simp [List.filterMap_map, Function.comp_def]
  rw [map, joinAll, h, List.mapM_map]
  rfl

end Pool
end Postings
