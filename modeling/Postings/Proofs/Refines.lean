import Postings.Error

/-!
# Attempts that see less

The same data can be there in full, or only the front of it.  An attempt on the front
*refines* the attempt on all of it when success there is success here, with the same
answer, and leads from related states to related states.  Attempts in sequence refine
step by step, so that a reader refines another one when each of its fields does.
-/

namespace Postings
namespace Attempt

variable {σ τ α β : Type}

/-- Where `x` succeeds from a state, `y` succeeds with the same answer from the states
that `before` relates to it, and `after` relates what they leave. -/
structure Refines (before after : σ → τ → Prop) (x : Attempt σ α) (y : Attempt τ α) : Prop where
  run : ∀ {s t}, before s t → ∀ {a s'}, x.runFrom s = (.ok a, s') →
    ∃ t', y.runFrom t = (.ok a, t') ∧ after s' t'

namespace Refines

variable {before between after : σ → τ → Prop}

theorem pure (a : α) : Refines before before (Pure.pure a : Attempt σ α) (Pure.pure a) := by
  refine ⟨fun {s t} hst {b s'} hrun => ?_⟩
  obtain ⟨⟨⟩, rfl⟩ := Prod.mk.inj hrun
  exact ⟨t, rfl, hst⟩

/-- Attempts in sequence refine one after the other. -/
theorem bind {x : Attempt σ α} {y : Attempt τ α} {f : α → Attempt σ β} {g : α → Attempt τ β}
    (h : Refines before between x y) (hfg : ∀ a, Refines between after (f a) (g a)) :
    Refines before after (x >>= f) (y >>= g) := by
  refine ⟨fun {s t} hst {b s'} hrun => ?_⟩
  obtain ⟨a, u, hx, hf⟩ := of_runFrom_bind hrun
  obtain ⟨w, hy, huw⟩ := h.run hst hx
  obtain ⟨t', hg, hafter⟩ := (hfg a).run huw hf
  exact ⟨t', by rw [runFrom_bind, hy]; exact hg, hafter⟩

/-- What is refused on the front need not be told about, nor what would have followed. -/
theorem throw_bind (e : Error) (f : α → Attempt σ β) (y : Attempt τ β) :
    Refines before after (MonadExcept.throw e >>= f) y := by
  refine ⟨fun {s t} _ {b s'} hrun => ?_⟩
  cases hrun

/-- What is known of the states may be more in front and less behind. -/
theorem weaken {before' after' : σ → τ → Prop} {x : Attempt σ α} {y : Attempt τ α}
    (h : Refines before after x y) (hbefore : ∀ s t, before' s t → before s t)
    (hafter : ∀ s t, after s t → after' s t) : Refines before' after' x y := by
  refine ⟨fun {s t} hst {a s'} hrun => ?_⟩
  obtain ⟨t', hy, hst'⟩ := h.run (hbefore s t hst) hrun
  exact ⟨t', hy, hafter s' t' hst'⟩

end Refines
end Attempt
end Postings
