import Postings.Proofs.Sequence.Law

/-!
# Cursors over damaged data

Part of a region may be missing.  What is read from the rest must not be wrong: opening
may be refused and a walk may end in damage, but a cursor that answers answers as the
plain one does.  `Yields` says this of one computation and `FollowsUnless` of a cursor:
it *follows, unless damaged*, when every finite run of allowed moves ends in damage or
at a cursor that shows what the plain one shows.

Whether data may be damaged is a proposition.  If it is false nothing may fail, and a
cursor that follows unless damaged follows; so what holds of damaged data is proved once
and holds of sound data too.

A cursor over part of the data does what the one over all of it does for as long as
nothing is missing; it *mirrors* that one.  What mirrors a cursor that follows does
follow, unless damaged.
-/

namespace Postings

variable {α β : Type} {fails : Failure → Prop} {damaged : Prop}

/-! ## One computation -/

/-- Opening is refused, which only damaged data may be. -/
def Failure.RefusedIf (damaged : Prop) (e : Failure) : Prop :=
  damaged ∧ ∃ cause, e = .refused cause

/-- A walk ends in damage, which only damaged data may have. -/
def Failure.CorruptIf (damaged : Prop) (e : Failure) : Prop :=
  damaged ∧ ∃ cause, e = .corrupt cause

/-- A computation succeeds with what is wanted, or fails in a way that is put up with. -/
def Yields (fails : Failure → Prop) (x : Except Failure α) (wanted : α → Prop) : Prop :=
  match x with
  | .ok a => wanted a
  | .error e => fails e

namespace Yields

variable {x : Except Failure α} {wanted : α → Prop}

theorem of_ok {a : α} (hx : x = .ok a) (ha : wanted a) : Yields fails x wanted := by
  rw [hx]
  exact ha

theorem ok (h : Yields fails x wanted) {a : α} (hx : x = .ok a) : wanted a := by
  rw [hx] at h
  exact h

theorem failed_or (h : Yields fails x wanted) :
    (∃ e, x = .error e ∧ fails e) ∨ ∃ a, x = .ok a ∧ wanted a := by
  cases x with
  | error e => exact .inl ⟨e, rfl, h⟩
  | ok a => exact .inr ⟨a, rfl, h⟩

/-- Where no failure is put up with there is none. -/
theorem exists_ok (h : Yields fails x wanted) (hnone : ∀ e, ¬ fails e) :
    ∃ a, x = .ok a ∧ wanted a := by
  rcases h.failed_or with ⟨e, -, he⟩ | hok
  · exact absurd he (hnone e)
  · exact hok

theorem imp {weaker : α → Prop} (h : Yields fails x wanted) (hw : ∀ a, wanted a → weaker a) :
    Yields fails x weaker := by
  cases x with
  | error e => exact h
  | ok a => exact hw a h

/-- Computations in sequence. -/
theorem bind {f : α → Except Failure β} {last : β → Prop} (h : Yields fails x wanted)
    (hf : ∀ a, wanted a → Yields fails (f a) last) : Yields fails (x >>= f) last := by
  cases x with
  | error e => exact h
  | ok a => exact hf a h

/-- A last step that only changes the answer. -/
theorem map {f : α → β} {last : β → Prop} (h : Yields fails x wanted)
    (hf : ∀ a, wanted a → last (f a)) : Yields fails (f <$> x) last := by
  cases x with
  | error e => exact h
  | ok a => exact hf a h

/-- To a walk a refusal is damage. -/
theorem whileWalking (h : Yields (Failure.RefusedIf damaged) x wanted) :
    Yields (Failure.CorruptIf damaged) (x.mapError Failure.whileWalking) wanted := by
  cases x with
  | ok a => exact h
  | error e =>
      obtain ⟨hdamaged, cause, rfl⟩ := h
      exact ⟨hdamaged, cause, rfl⟩

end Yields

/-- One computation answers as another does, or fails in a way that is put up with. -/
def Mirrors (fails : Failure → Prop) (r : α → β → Prop) (x : Except Failure α)
    (y : Except Failure β) : Prop :=
  Yields fails x fun a => ∃ b, y = .ok b ∧ r a b

namespace Mirrors

variable {γ δ : Type} {r : α → β → Prop} {s : γ → δ → Prop} {x : Except Failure α}
  {y : Except Failure β}

theorem pure {a : α} {b : β} (h : r a b) :
    Mirrors fails r (Pure.pure a) (Pure.pure b) :=
  ⟨b, rfl, h⟩

/-- What the one answers that mirrors a success. -/
theorem yields (h : Mirrors fails r x y) {b : β} (hy : y = .ok b) : Yields fails x (r · b) := by
  rw [hy] at h
  refine Yields.imp h ?_
  rintro a ⟨_, hb, hab⟩
  obtain rfl := Except.ok.inj hb
  exact hab

theorem bind {f : α → Except Failure γ} {g : β → Except Failure δ} (h : Mirrors fails r x y)
    (hfg : ∀ a b, r a b → Mirrors fails s (f a) (g b)) : Mirrors fails s (x >>= f) (y >>= g) := by
  refine Yields.bind h ?_
  rintro a ⟨b, rfl, hab⟩
  exact hfg a b hab

/-- Both take the same branch. -/
theorem ite {p q : Prop} [Decidable p] [Decidable q] (hpq : p ↔ q) {x' : Except Failure α}
    {y' : Except Failure β} (hthen : p → Mirrors fails r x y)
    (helse : ¬ p → Mirrors fails r x' y') :
    Mirrors fails r (if p then x else x') (if q then y else y') := by
  by_cases hp : p
  · rw [if_pos hp, if_pos (hpq.mp hp)]
    exact hthen hp
  · rw [if_neg hp, if_neg fun hq => hp (hpq.mpr hq)]
    exact helse hp

theorem map {f : α → γ} {g : β → δ} (h : Mirrors fails r x y)
    (hfg : ∀ a b, r a b → s (f a) (g b)) : Mirrors fails s (f <$> x) (g <$> y) := by
  refine Yields.map h ?_
  rintro a ⟨b, rfl, hab⟩
  exact ⟨g b, rfl, hfg a b hab⟩

end Mirrors

/-! ## Cursors -/

namespace SequenceCursor

variable {γ : Type} [SequenceCursor γ]

/-- Two cursors give the same answers, but for a value before the position that one of
them misses. -/
structure AgreesUnless (damaged : Prop) (c : γ) (p : Plain) : Prop where
  size_eq : size c = p.values.length
  position_eq : position c = p.position
  value_eq : value c = p.value
  prevValue : Yields (Failure.CorruptIf damaged) (SequenceCursor.prevValue c) (· = p.prevValue)

/-- Every allowed run of moves ends in damage or leads to the same answers. -/
def FollowsUnless (damaged : Prop) (c : γ) (p : Plain) : Prop :=
  ∀ moves, Move.AllAllowed p moves →
    Yields (Failure.CorruptIf damaged) (run c moves) fun c' =>
      AgreesUnless damaged c' (moves.foldl Move.apply p)

namespace FollowsUnless

variable {c : γ} {p : Plain}

/-- A relation that implies equal answers and is preserved by every allowed move that
succeeds is enough. -/
theorem of_invariant {r : γ → Plain → Prop} (hagrees : ∀ c p, r c p → AgreesUnless damaged c p)
    (hstep : ∀ c p m, r c p → m.Allowed p →
      Yields (Failure.CorruptIf damaged) (perform c m) fun c' => r c' (m.apply p))
    (h : r c p) : FollowsUnless damaged c p := by
  intro moves
  induction moves generalizing c p with
  | nil => exact fun _ => hagrees c p h
  | cons m moves ih =>
      rintro ⟨hm, hmoves⟩
      exact (hstep c p m h hm).bind fun c' hr => ih hr hmoves

theorem agrees (h : FollowsUnless damaged c p) : AgreesUnless damaged c p :=
  h [] trivial

/-- An allowed move ends in damage, or the cursor goes on to follow. -/
theorem perform (h : FollowsUnless damaged c p) {m : Move} (hm : m.Allowed p) :
    Yields (Failure.CorruptIf damaged) (SequenceCursor.perform c m) fun c' =>
      FollowsUnless damaged c' (m.apply p) := by
  cases hc : SequenceCursor.perform c m with
  | error e =>
      have hone := h [m] ⟨hm, trivial⟩
      rw [run, hc] at hone
      exact hone
  | ok c' =>
      intro moves hmoves
      have hrest := h (m :: moves) ⟨hm, hmoves⟩
      rw [run, hc] at hrest
      exact hrest

theorem moveTo (h : FollowsUnless damaged c p) {position : Nat} (hp : position ≤ p.values.length) :
    Yields (Failure.CorruptIf damaged) (SequenceCursor.moveTo c position) fun c' =>
      FollowsUnless damaged c' { p with position } :=
  h.perform (m := .moveTo position) hp

theorem next (h : FollowsUnless damaged c p) (hp : p.position < p.values.length) :
    Yields (Failure.CorruptIf damaged) (SequenceCursor.next c) fun c' =>
      FollowsUnless damaged c' { p with position := p.position + 1 } :=
  h.perform (m := .next) hp

theorem nextGeq (h : FollowsUnless damaged c p) (bound : Nat) :
    Yields (Failure.CorruptIf damaged) (SequenceCursor.nextGeq c bound) fun c' =>
      FollowsUnless damaged c' (p.nextGeq bound) :=
  h.perform (m := .nextGeq bound) trivial

/-- What mirrors a cursor that follows does follow, unless damaged. -/
theorem of_mirrors {r : γ → γ → Prop}
    (hsame : ∀ c d, r c d → size c = size d ∧ position c = position d ∧ value c = value d ∧
      Mirrors (Failure.CorruptIf damaged) Eq (prevValue c) (prevValue d))
    (hstep : ∀ c d m, r c d → Mirrors (Failure.CorruptIf damaged) r (SequenceCursor.perform c m)
      (SequenceCursor.perform d m))
    {d : γ} (h : r c d) (hd : Follows d p) : FollowsUnless damaged c p := by
  refine of_invariant (r := fun c p => ∃ d, r c d ∧ Follows d p) ?_ ?_ ⟨d, h, hd⟩
  · rintro c p ⟨d, hcd, hd⟩
    obtain ⟨hsize, hposition, hvalue, hprev⟩ := hsame c d hcd
    have hagree := hd.agrees
    exact ⟨hsize.trans hagree.size_eq, hposition.trans hagree.position_eq,
      hvalue.trans hagree.value_eq, hprev.yields hagree.prevValue_eq⟩
  · rintro c p m ⟨d, hcd, hd⟩ hm
    obtain ⟨d', hd', hfollows⟩ := hd.perform hm
    exact ((hstep c d m hcd).yields hd').imp fun c' hcd' => ⟨d', hcd', hfollows⟩

end FollowsUnless

variable {c : γ} {p : Plain}

/-- A cursor that follows does so unless damaged. -/
theorem Follows.unless (h : Follows c p) (damaged : Prop) : FollowsUnless damaged c p := by
  intro moves hmoves
  obtain ⟨c', hrun, hagree⟩ := h moves hmoves
  exact .of_ok hrun ⟨hagree.size_eq, hagree.position_eq, hagree.value_eq,
    .of_ok hagree.prevValue_eq rfl⟩

/-- Over sound data a cursor that follows unless damaged follows. -/
theorem FollowsUnless.follows (h : FollowsUnless False c p) : Follows c p := by
  have hnone : ∀ e, ¬ Failure.CorruptIf False e := fun _ he => he.1
  intro moves hmoves
  obtain ⟨c', hrun, hagree⟩ := (h moves hmoves).exists_ok hnone
  obtain ⟨before, hprev, rfl⟩ := hagree.prevValue.exists_ok hnone
  exact ⟨c', hrun, hagree.size_eq, hagree.position_eq, hagree.value_eq, hprev⟩

end SequenceCursor

/-! ## Formats -/

open SequenceCursor

namespace Format

/-- A region is refused, or opens at its first position to a cursor that follows the
list, unless damaged. -/
def OpensUnless (damaged : Prop) (f : Format) (v : BitString) (pos univ : Nat)
    (values : List Nat) (params : Params) : Prop :=
  Yields (Failure.RefusedIf damaged) (f.openAt v pos univ values.length params) fun c =>
    FollowsUnless damaged c ⟨values, univ, 0⟩ ∧ ∃ c', moveTo c 0 = .ok c'

theorem Opens.unless {f : Format} {v : BitString} {pos univ : Nat} {values : List Nat}
    {params : Params} (h : f.Opens v pos univ values params) (damaged : Prop) :
    f.OpensUnless damaged v pos univ values params := by
  obtain ⟨c, hopen, hfollows⟩ := h
  obtain ⟨c', hc', -⟩ := hfollows.moveTo (Nat.zero_le _)
  exact .of_ok hopen ⟨hfollows.unless damaged, c', hc'⟩

/-- Opening never ends in damage, whatever the bits are. -/
def OpensOrRefuses (f : Format) (params : Params) : Prop :=
  ∀ v pos univ n, Yields (Failure.RefusedIf True) (f.openAt v pos univ n params) fun _ => True

/-- Of a region that was cut off somewhere a format makes out no more than is left. -/
def WithstandsCuts (f : Format) (params : Params) : Prop :=
  ∀ {v cut : BitString}, v.Extends cut → cut.size % 8 = 0 → ∀ {pos univ values},
    f.Opens v pos univ values params → f.OpensUnless True cut pos univ values params

end Format
end Postings
