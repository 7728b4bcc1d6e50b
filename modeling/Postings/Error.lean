/-!
# Why an operation fails

Two things can go wrong in this library.  An operation may *refuse*: an argument
is out of its domain, a stored header contradicts itself, a region ends before
the field that is read from it.  Refusals are values of `Error`, one constructor
per cause, and `Error.message` gives the wording of each.  Or a cursor that has
been opened may run into a damaged region while it walks; that ends the walk for
good, and `Failure` tells it apart from a refusal.

Writers, readers and builders carry a state that outlives a refusal: what was
written or read before the fault stays.  Their computations are values of
`Attempt`, so the state left behind is part of every result.
-/

namespace Postings

/-! ## Causes -/

/-- What a verification compares. -/
inductive Field where
  | docid
  | freq
  | size
  | termCount
  deriving DecidableEq, Repr

/-- The word for a compared field in a message. -/
def Field.label : Field → String
  | .docid => "docid"
  | .freq => "freq"
  | .size => "size"
  | .termCount => "term count"

/-- Why an operation refuses. -/
inductive Error where
  /-- An argument is outside the domain of the operation. -/
  | invalidArgument (name message : String)
  /-- The operation is not possible in the current state. -/
  | invalidOperation (name : String)
  /-- Stored data does not follow its format. -/
  | invalidFormat (element message : String)
  /-- A region ends before the data that its header promises; sizes in bits. -/
  | regionTooShort (element : String) (required available : Nat)
  /-- A value exceeds the width of a posting. -/
  | codecOverflow (codec : String) (value : Nat)
  /-- An index differs from the collection that it is compared with. -/
  | verificationMismatch (term position : Nat) (field : Field) (expected actual : Nat)
  /-- A byte source or sink failed. -/
  | io (context source : String)
  deriving DecidableEq, Repr

/-- The wording of a cause. -/
def Error.message : Error → String
  | .invalidArgument name message => s!"invalid argument {name}: {message}"
  | .invalidOperation name => s!"invalid operation {name}"
  | .invalidFormat element message => s!"invalid encoded format for '{element}': {message}"
  | .regionTooShort element required available =>
      s!"region too short for '{element}': {required} bits required, {available} available"
  | .codecOverflow codec value =>
      s!"value {value} does not fit the 32-bit posting width of {codec}"
  | .verificationMismatch term position field expected actual =>
      s!"verification failed for term {term} at position {position}: " ++
        s!"{field.label} expected {expected}, found {actual}"
  | .io context source => s!"IO error for '{context}': {source}'"

/-- An argument is accepted when its condition holds; otherwise the condition
itself is the message. -/
def checkArgument (name condition : String) (holds : Bool) : Except Error Unit :=
  if holds then .ok () else .error (.invalidArgument name condition)

/-- Stored data is accepted when its condition holds; otherwise the condition
itself is the message. -/
def checkFormat (element condition : String) (holds : Bool) : Except Error Unit :=
  if holds then .ok () else .error (.invalidFormat element condition)

@[simp] theorem checkArgument_eq_ok (name condition : String) (holds : Bool) :
    checkArgument name condition holds = .ok () ↔ holds = true := by
  cases holds <;> simp [checkArgument]

@[simp] theorem checkFormat_eq_ok (element condition : String) (holds : Bool) :
    checkFormat element condition holds = .ok () ↔ holds = true := by
  cases holds <;> simp [checkFormat]

/-- What succeeds in sequence succeeds step by step. -/
theorem exists_of_bind_eq_ok {ε α β : Type} {x : Except ε α} {f : α → Except ε β} {b : β}
    (h : x >>= f = .ok b) : ∃ a, x = .ok a ∧ f a = .ok b := by
  cases x with
  | error e => cases h
  | ok a => exact ⟨a, rfl, h⟩

/-- What begins with a check succeeds when the check does and the rest does. -/
theorem check_bind_eq_ok {ε β : Type} {x : Except ε Unit} {f : Unit → Except ε β} {b : β} :
    x >>= f = .ok b ↔ x = .ok () ∧ f () = .ok b := by
  cases x with
  | error e =>
      constructor
      · intro h
        cases h
      · rintro ⟨h, -⟩
        cases h
  | ok a => exact ⟨fun h => ⟨rfl, h⟩, fun h => h.2⟩

/-! ## Refusals and damage -/

/-- How an operation on a stored sequence fails. -/
inductive Failure where
  /-- The operation was not carried out. -/
  | refused (error : Error)
  /-- A cursor found its region damaged while it walked; the walk is over. -/
  | corrupt (error : Error)
  deriving DecidableEq, Repr

/-- The wording of a failure. -/
def Failure.message : Failure → String
  | .refused error => error.message
  | .corrupt error => "corrupt sequence region: " ++ error.message

/-- Whatever stopped the operation, a walk takes it for damage. -/
def Failure.whileWalking : Failure → Failure
  | .refused error => .corrupt error
  | .corrupt error => .corrupt error

/-- A refusal inside an operation on a stored sequence refuses the operation. -/
instance : MonadLift (Except Error) (Except Failure) where
  monadLift x := x.mapError .refused

/-! ## Computations that keep their state -/

/-- A computation on a state `σ` that may refuse; the state that it leaves is
there in either case. -/
abbrev Attempt (σ α : Type) := ExceptT Error (StateM σ) α

/-- The answer of an attempt from a state, and the state that it leaves. -/
def Attempt.runFrom {σ α : Type} (x : Attempt σ α) (s : σ) : Except Error α × σ :=
  (ExceptT.run x).run s

namespace Attempt

variable {σ α β : Type}

@[simp] theorem runFrom_pure (a : α) (s : σ) :
    runFrom (pure a : Attempt σ α) s = (.ok a, s) := rfl

@[simp] theorem runFrom_throw (e : Error) (s : σ) :
    runFrom (throw e : Attempt σ α) s = (.error e, s) := rfl

@[simp] theorem runFrom_get (s : σ) : runFrom (get : Attempt σ σ) s = (.ok s, s) := rfl

@[simp] theorem runFrom_set (t s : σ) : runFrom (set t : Attempt σ Unit) s = (.ok (), t) := rfl

@[simp] theorem runFrom_modify (f : σ → σ) (s : σ) :
    runFrom (modify f : Attempt σ Unit) s = (.ok (), f s) := rfl

@[simp] theorem runFrom_lift (x : Except Error α) (s : σ) :
    runFrom (liftM x : Attempt σ α) s = (x, s) := rfl

/-- A sequence of two attempts: the second runs from the state that the first
leaves, unless the first refuses. -/
theorem runFrom_bind (x : Attempt σ α) (f : α → Attempt σ β) (s : σ) :
    runFrom (x >>= f) s =
      match runFrom x s with
      | (.ok a, t) => runFrom (f a) t
      | (.error e, t) => (.error e, t) := by
  simp only [runFrom, ExceptT.run, bind, ExceptT.bind, ExceptT.mk, StateT.bind, StateT.run]
  rcases x s with ⟨r, t⟩
  cases r <;> rfl

/-- If two attempts in a row succeed, each of them does. -/
theorem of_runFrom_bind {x : Attempt σ α} {f : α → Attempt σ β} {s t : σ} {b : β}
    (h : runFrom (x >>= f) s = (.ok b, t)) :
    ∃ a u, runFrom x s = (.ok a, u) ∧ runFrom (f a) u = (.ok b, t) := by
  rw [runFrom_bind] at h
  split at h
  · rename_i a u hx
    exact ⟨a, u, hx, h⟩
  · cases h

/-- A check that an attempt begins with has passed if the attempt succeeds. -/
theorem of_runFrom_lift_bind {x : Except Error α} {f : α → Attempt σ β} {s t : σ} {b : β}
    (h : runFrom (liftM x >>= f) s = (.ok b, t)) :
    ∃ a, x = .ok a ∧ runFrom (f a) s = (.ok b, t) := by
  obtain ⟨a, u, hx, hf⟩ := of_runFrom_bind h
  cases hx
  exact ⟨a, rfl, hf⟩

/-- Two attempts in a row succeed exactly if each of them does. -/
theorem runFrom_bind_ok_iff {x : Attempt σ α} {f : α → Attempt σ β} {s t : σ} {b : β} :
    runFrom (x >>= f) s = (.ok b, t) ↔
      ∃ a u, runFrom x s = (.ok a, u) ∧ runFrom (f a) u = (.ok b, t) := by
  refine ⟨of_runFrom_bind, ?_⟩
  rintro ⟨a, u, hx, hf⟩
  rw [runFrom_bind, hx]
  exact hf

/-- An attempt that begins with a check succeeds exactly if the check and the rest do. -/
theorem runFrom_lift_bind_ok_iff {x : Except Error α} {f : α → Attempt σ β} {s t : σ} {b : β} :
    runFrom (liftM x >>= f) s = (.ok b, t) ↔ ∃ a, x = .ok a ∧ runFrom (f a) s = (.ok b, t) := by
  refine ⟨of_runFrom_lift_bind, ?_⟩
  rintro ⟨a, rfl, hf⟩
  exact hf

end Attempt

end Postings
