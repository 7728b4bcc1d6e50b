import Postings.Error

/-!
# Computations that may fault

Numbers here have no width.  A machine's do: where a sum does not fit its width, a
difference is below zero, a shift passes the width or loses a bit, or a piece reaches past
the end of a list, there is a *fault*, and nothing is answered.  A checked computation does
one such operation at a time.

It *agrees* with an attempt if from every state it goes without a fault and does the same.
Agreement goes along a sequence; what is known of the answers on the way
(`Attempt.Answers`) is what keeps the operations behind them in their widths.
-/

namespace Postings

/-! ## Answers -/

/-- If the attempt succeeds, whatever it starts from, its answer is as it should be. -/
structure Attempt.Answers {σ α : Type} (x : Attempt σ α) (good : α → Prop) : Prop where
  run : ∀ {s a s'}, x.runFrom s = (.ok a, s') → good a

namespace Attempt.Answers

variable {σ α β : Type} {good : α → Prop} {last : β → Prop}

theorem pure {a : α} (h : good a) : Attempt.Answers (Pure.pure a : Attempt σ α) good := by
  refine ⟨fun {s b s'} hrun => ?_⟩
  obtain rfl := Except.ok.inj (congrArg Prod.fst hrun)
  exact h

theorem lift {x : Except Error α} (h : ∀ a, x = .ok a → good a) :
    Attempt.Answers (liftM x : Attempt σ α) good :=
  ⟨fun {_ a _} hrun => h a (congrArg Prod.fst hrun)⟩

theorem bind {x : Attempt σ α} {f : α → Attempt σ β} (hx : Attempt.Answers x good)
    (hf : ∀ a, good a → Attempt.Answers (f a) last) : Attempt.Answers (x >>= f) last := by
  refine ⟨fun {s b s'} hrun => ?_⟩
  obtain ⟨a, u, ha, hb⟩ := of_runFrom_bind hrun
  exact (hf a (hx.run ha)).run hb

/-- Of a refusal there is nothing to show, nor of what would have followed it. -/
theorem throw_bind (e : Error) (f : α → Attempt σ β) :
    Attempt.Answers (MonadExcept.throw e >>= f) last := by
  refine ⟨fun {s b s'} hrun => ?_⟩
  cases hrun

theorem any (x : Attempt σ α) : Attempt.Answers x fun _ => True :=
  ⟨fun _ => trivial⟩

end Attempt.Answers

/-! ## Bits above others -/

theorem or_above {low k : Nat} (h : low < 2 ^ k) (high : Nat) :
    low ||| high * 2 ^ k = low + 2 ^ k * high := by
  rw [Nat.mul_comm, Nat.or_comm, ← Nat.two_pow_add_eq_or_of_lt h, Nat.add_comm]

theorem above_lt {low k high width : Nat} (hlow : low < 2 ^ k) (hhigh : high < 2 ^ width) :
    low + 2 ^ k * high < 2 ^ (k + width) :=
  calc low + 2 ^ k * high
      < 2 ^ k + 2 ^ k * high := Nat.add_lt_add_right hlow _
    _ = 2 ^ k * (high + 1) := by rw [Nat.mul_succ, Nat.add_comm]
    _ ≤ 2 ^ k * 2 ^ width := Nat.mul_le_mul_left _ hhigh
    _ = 2 ^ (k + width) := (Nat.pow_add 2 k width).symm

/-! ## Operations that may fault -/

namespace Checked

/-- A sum that fits the width. -/
def add (width x y : Nat) : Option Nat :=
  if x + y < 2 ^ width then some (x + y) else none

/-- A difference that is not below zero. -/
def sub (x y : Nat) : Option Nat :=
  if y ≤ x then some (x - y) else none

/-- A shift to the left by less than the width that loses no bit. -/
def shl (width x k : Nat) : Option Nat :=
  if k < width ∧ x * 2 ^ k < 2 ^ width then some (x * 2 ^ k) else none

/-- A shift to the right by less than the width. -/
def shr (width x k : Nat) : Option Nat :=
  if k < width then some (x / 2 ^ k) else none

/-- A piece that lies within a list. -/
def slice {α : Type} (xs : List α) (start len : Nat) : Option (List α) :=
  if start + len ≤ xs.length then some ((xs.drop start).take len) else none

/-- A shift does not fault if what comes out fits beneath the width. -/
theorem shl_eq {width x k size : Nat} (hx : x < 2 ^ size) (h : k + size ≤ width)
    (hsize : 0 < size) : shl width x k = some (x * 2 ^ k) := by
  refine if_pos ⟨by omega, ?_⟩
  calc x * 2 ^ k
      < 2 ^ size * 2 ^ k := Nat.mul_lt_mul_of_pos_right hx (Nat.two_pow_pos k)
    _ = 2 ^ (k + size) := by rw [Nat.mul_comm, Nat.pow_add]
    _ ≤ 2 ^ width := Nat.pow_le_pow_right (by decide) h

end Checked

/-! ## Computations that may fault -/

/-- A computation on a state that may refuse, and may fault. -/
abbrev Checked (σ α : Type) := ExceptT Error (StateT σ Option) α

namespace Checked

variable {σ τ α β : Type}

/-- The answer from a state and the state that is left, unless there is a fault. -/
def runFrom (c : Checked σ α) (s : σ) : Option (Except Error α × σ) :=
  (ExceptT.run c).run s

/-- An attempt in which no arithmetic is done. -/
def plain (x : Attempt σ α) : Checked σ α :=
  fun s => some (x.runFrom s)

theorem runFrom_bind (c : Checked σ α) (g : α → Checked σ β) (s : σ) :
    runFrom (c >>= g) s =
      match runFrom c s with
      | none => none
      | some (.ok a, t) => runFrom (g a) t
      | some (.error e, t) => some (.error e, t) := by
  simp only [runFrom, ExceptT.run, bind, ExceptT.bind, ExceptT.mk, StateT.bind, StateT.run]
  rcases c s with _ | ⟨_ | a, t⟩ <;> rfl

/-- An operation that does not fault leaves its result. -/
theorem runFrom_lift_bind {o : Option α} {a : α} (h : o = some a) (g : α → Checked σ β) (s : σ) :
    runFrom (liftM o >>= g) s = runFrom (g a) s := by
  subst h
  rfl

/-- From what is seen of every state, the checked computation goes without a fault and does
what the attempt does. -/
structure Agrees (view : σ → τ) (c : Checked τ α) (x : Attempt σ α) : Prop where
  run : ∀ s, c.runFrom (view s) = some ((x.runFrom s).1, view (x.runFrom s).2)

namespace Agrees

variable {view : σ → τ}

theorem run_eq {c : Checked τ α} {x : Attempt σ α} (h : Agrees view c x) {s t : σ}
    {answer : Except Error α} (hrun : x.runFrom s = (answer, t)) :
    c.runFrom (view s) = some (answer, view t) := by
  rw [h.run, hrun]

theorem plain (x : Attempt σ α) : Agrees id (Checked.plain x) x :=
  ⟨fun _ => rfl⟩

theorem pure (a : α) : Agrees view (Pure.pure a) (Pure.pure a) :=
  ⟨fun _ => rfl⟩

theorem throw (e : Error) :
    Agrees view (MonadExcept.throw e) (MonadExcept.throw e : Attempt σ α) :=
  ⟨fun _ => rfl⟩

/-- What would have followed a refusal does not matter. -/
theorem throw_bind (e : Error) (g : α → Checked τ β) (f : α → Attempt σ β) :
    Agrees view (MonadExcept.throw e >>= g) (MonadExcept.throw e >>= f) :=
  ⟨fun _ => rfl⟩

theorem lift (x : Except Error α) : Agrees view (liftM x) (liftM x) := by
  cases x with
  | error e => exact .throw e
  | ok a => exact .pure a

/-- Computations in sequence agree step by step; the second need agree only behind the
answers that the first can give. -/
theorem bind {good : α → Prop} {c : Checked τ α} {x : Attempt σ α} {g : α → Checked τ β}
    {f : α → Attempt σ β} (hx : Agrees view c x) (hgood : x.Answers good)
    (hf : ∀ a, good a → Agrees view (g a) (f a)) : Agrees view (c >>= g) (x >>= f) := by
  refine ⟨fun s => ?_⟩
  rcases hrun : x.runFrom s with ⟨answer, t⟩
  rw [runFrom_bind, hx.run_eq hrun, Attempt.runFrom_bind, hrun]
  cases answer with
  | error e => rfl
  | ok a => exact (hf a (hgood.run hrun)).run t

theorem after {o : Option α} {a : α} {g : α → Checked τ β} {x : Attempt σ β} (h : o = some a)
    (hx : Agrees view (g a) x) : Agrees view (liftM o >>= g) x :=
  ⟨fun s => (runFrom_lift_bind h g (view s)).trans (hx.run s)⟩

/-- What agrees for every element agrees for a list of them. -/
theorem mapM {γ : Type} {c : γ → Checked τ α} {x : γ → Attempt σ α} {items : List γ}
    (h : ∀ item ∈ items, Agrees view (c item) (x item)) :
    Agrees view (items.mapM c) (items.mapM x) := by
  induction items with
  | nil => exact .pure []
  | cons item items ih =>
      obtain ⟨hitem, hitems⟩ := List.forall_mem_cons.mp h
      rw [List.mapM_cons, List.mapM_cons]
      exact hitem.bind (.any _) fun _ _ => (ih hitems).bind (.any _) fun _ _ => .pure _

theorem computed {o : Option α} {a : α} (h : o = some a) :
    Agrees view (liftM o) (Pure.pure a : Attempt σ α) := by
  subst h
  exact .pure a

end Agrees

end Checked
end Postings
