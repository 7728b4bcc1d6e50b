import Mathlib.Tactic.Common
import Postings.Proofs.Checked
import Postings.Sample.Docs

/-!
# Docids that are sampled

What is said of a sample holds whatever the source shows, as long as it keeps to its bounds.
`Always` says so of a sampler; `Answers` says it of one that may draw on and on, so that there
may be no answer.  Both go along a sequence.

Every sampler of docids answers with as many docids as it was asked for, in ascending order
and within its range (`Docids`).  What carries the three loops differs.  Selection passes on
no fewer documents than are still needed: where it leaves one out, the number drawn was not
below the needed ones.  A set of different docids grows by one at most.  And what the gaps of
a cluster have not used up is still slack: the documents passed, those still to come and the
slack add up to the collection, so no gap takes more than there is
(`checkedCluster_agrees`).
-/

namespace Postings
namespace Sample

variable {σ α β : Type} {good : α → Prop} {last : β → Prop}

/-! ## Whatever is drawn -/

/-- Whatever the source shows, the answer is as it should be. -/
structure Always (x : StateM σ α) (good : α → Prop) : Prop where
  run : ∀ s, good (x.run s).1

/-- Whatever the source shows, an answer is as it should be; that there is one is only said
where the sampler is sure to come to an end (`ends`). -/
structure Answers (ends : Prop) (x : OptionT (StateM σ) α) (good : α → Prop) : Prop where
  run : Always x.run fun answer => (ends → answer ≠ none) ∧ ∀ a, answer = some a → good a

namespace Always

theorem pure {a : α} (h : good a) : Always (Pure.pure a : StateM σ α) good :=
  ⟨fun _ => h⟩

theorem bind {x : StateM σ α} {f : α → StateM σ β} (hx : Always x good)
    (hf : ∀ a, good a → Always (f a) last) : Always (x >>= f) last :=
  ⟨fun s => (hf _ (hx.run s)).run (x.run s).2⟩

theorem any (x : StateM σ α) : Always x fun _ => True :=
  ⟨fun _ => trivial⟩

theorem below (draws : Draws σ) {width bound : Nat} (h : 0 < bound) :
    Always (draws.below width bound) (· < bound) :=
  ⟨fun s => draws.below_lt s h⟩

theorem between (draws : Draws σ) {width low high : Nat} (h : low ≤ high) :
    Always (draws.between width low high) fun x => low ≤ x ∧ x ≤ high :=
  ⟨draws.between_bounds h⟩

end Always

namespace Answers

variable {ends : Prop}

theorem pure {a : α} (h : good a) : Answers ends (Pure.pure a : OptionT (StateM σ) α) good := by
  refine ⟨⟨fun s => ⟨fun _ hnone => (nomatch hnone), fun b hsome => ?_⟩⟩⟩
  cases hsome
  exact h

theorem failure : Answers False (Alternative.failure : OptionT (StateM σ) α) good :=
  ⟨⟨fun _ => ⟨False.elim, fun _ hsome => nomatch hsome⟩⟩⟩

theorem lift {x : StateM σ α} (h : Always x good) :
    Answers ends (liftM x : OptionT (StateM σ) α) good := by
  refine ⟨⟨fun s => ⟨fun _ hnone => (nomatch hnone), fun b hsome => ?_⟩⟩⟩
  cases hsome
  exact h.run s

theorem bind {x : OptionT (StateM σ) α} {f : α → OptionT (StateM σ) β} (hx : Answers ends x good)
    (hf : ∀ a, good a → Answers ends (f a) last) : Answers ends (x >>= f) last := by
  refine ⟨?_⟩
  rw [OptionT.run_bind]
  refine hx.run.bind fun answer hanswer => ?_
  cases answer with
  | none => exact .pure ⟨fun hends => absurd rfl (hanswer.1 hends), fun b hb => nomatch hb⟩
  | some a => exact (hf a (hanswer.2 a rfl)).run

theorem weaken {ends' : Prop} {x : OptionT (StateM σ) α} (hx : Answers ends x good)
    (hends : ends' → ends) : Answers ends' x good :=
  ⟨⟨fun s => ⟨fun h => (hx.run.run s).1 (hends h), (hx.run.run s).2⟩⟩⟩

end Answers

/-! ## Ascending docids -/

/-- As many docids as asked for, ascending, from `low` on and below `numDocs`. -/
structure Docids (low numDocs count : Nat) (docs : List Nat) : Prop where
  length_eq : docs.length = count
  increasing : docs.Pairwise (· < ·)
  bounds : ∀ d ∈ docs, low ≤ d ∧ d < numDocs

namespace Docids

variable {low numDocs count doc : Nat} {docs : List Nat}

theorem nil : Docids low numDocs 0 [] :=
  ⟨rfl, .nil, by simp⟩

theorem mono (h : Docids doc numDocs count docs) (hlow : low ≤ doc) :
    Docids low numDocs count docs where
  length_eq := h.length_eq
  increasing := h.increasing
  bounds d hd := ⟨Nat.le_trans hlow (h.bounds d hd).1, (h.bounds d hd).2⟩

/-- A docid in front of later ones. -/
theorem cons (h : Docids (doc + 1) numDocs count docs) (hlow : low ≤ doc) (hdoc : doc < numDocs) :
    Docids low numDocs (count + 1) (doc :: docs) where
  length_eq := by simp [h.length_eq]
  increasing := List.pairwise_cons.mpr ⟨fun d hd => (h.bounds d hd).1, h.increasing⟩
  bounds := by
    simp only [List.forall_mem_cons]
    exact ⟨⟨hlow, hdoc⟩, fun d hd => ⟨Nat.le_trans (by omega) (h.bounds d hd).1, (h.bounds d hd).2⟩⟩

end Docids

/-- A document that there is has its number for a docid. -/
theorem docidOf_of_lt {doc numDocs : Nat} (h : doc < numDocs) (hdocs : numDocs ≤ 2 ^ 32) :
    docidOf doc = doc :=
  Nat.mod_eq_of_lt (Nat.lt_of_lt_of_le h hdocs)

section

variable (draws : Draws σ) {numDocs : Nat} (hdocs : numDocs ≤ 2 ^ 32)

include hdocs

/-! ## Selection -/

/-- Where no more are needed than are left, a document is left out only if as many are needed
of the rest. -/
theorem select_docids {left needed : Nat} (hneeded : needed ≤ left) (hleft : left ≤ numDocs) :
    Always (select draws numDocs left needed) (Docids (numDocs - left) numDocs needed) := by
  induction left generalizing needed with
  | zero =>
      obtain rfl : needed = 0 := Nat.le_zero.mp hneeded
      exact .pure .nil
  | succ left ih =>
      rw [select]
      split
      · rename_i hzero
        subst hzero
        exact .pure .nil
      · rename_i hsome
        refine (Always.below draws (Nat.succ_pos left)).bind fun drawn hdrawn => ?_
        have hnext : numDocs - (left + 1) + 1 = numDocs - left := by omega
        split
        · rename_i hkept
          rw [docidOf_of_lt (show numDocs - (left + 1) < numDocs by omega) hdocs]
          refine (ih (by omega) (by omega)).bind fun docs hdocids => .pure ?_
          rw [← hnext] at hdocids
          have hcons := hdocids.cons (Nat.le_refl _) (by omega)
          rwa [Nat.sub_add_cancel (Nat.pos_of_ne_zero hsome)] at hcons
        · rename_i hleftOut
          have hrest : Always (select draws numDocs left needed) _ := ih (by omega) (by omega)
          exact ⟨fun s => (hrest.run s).mono (by omega)⟩

/-! ## Clusters -/

/-- What the gaps have not used up is slack. -/
theorem cluster_docids {count start slack run : Nat} (h : start + count + slack = numDocs) :
    Always (cluster draws count start slack run) (Docids start numDocs count) := by
  induction count generalizing start slack run with
  | zero => exact .pure .nil
  | succ count ih =>
      have hstep : ∀ gap run, gap ≤ slack →
          Always (do return docidOf (start + gap) ::
              (← cluster draws count (start + gap + 1) (slack - gap) run))
            (Docids start numDocs (count + 1)) := by
        intro gap run hgap
        rw [docidOf_of_lt (show start + gap < numDocs by omega) hdocs]
        refine (ih (by omega)).bind fun docs hdocids => .pure ?_
        exact hdocids.cons (Nat.le_add_right _ _) (by omega)
      cases run with
      | zero =>
          rw [cluster]
          refine (Always.any _).bind fun run _ => ?_
          refine (Always.between draws (Nat.zero_le _)).bind fun jump hjump => ?_
          exact hstep jump run (by omega)
      | succ run =>
          rw [cluster]
          refine (Always.between draws (Nat.zero_le _)).bind fun gap hgap => ?_
          exact hstep gap run (by omega)

end

/-! ## Different docids -/

theorem mem_insertOnce {x d : Nat} {docs : List Nat} :
    d ∈ insertOnce x docs ↔ d = x ∨ d ∈ docs := by
  induction docs with
  | nil => simp [insertOnce]
  | cons y ys ih =>
      rw [insertOnce]
      split
      · simp
      · split
        · simp_all
        · simp only [List.mem_cons, ih]
          tauto

theorem insertOnce_increasing {x : Nat} {docs : List Nat} (h : docs.Pairwise (· < ·)) :
    (insertOnce x docs).Pairwise (· < ·) := by
  induction h with
  | nil => simp [insertOnce]
  | @cons y ys hy hys ih =>
      rw [insertOnce]
      split
      · rename_i hlt
        refine List.pairwise_cons.mpr ⟨?_, List.pairwise_cons.mpr ⟨hy, hys⟩⟩
        simp only [List.forall_mem_cons]
        exact ⟨hlt, fun d hd => Nat.lt_trans hlt (hy d hd)⟩
      · split
        · exact List.pairwise_cons.mpr ⟨hy, hys⟩
        · refine List.pairwise_cons.mpr ⟨fun d hd => ?_, ih⟩
          rcases mem_insertOnce.mp hd with rfl | hd
          · omega
          · exact hy d hd

theorem length_insertOnce_le (x : Nat) (docs : List Nat) :
    (insertOnce x docs).length ≤ docs.length + 1 := by
  induction docs with
  | nil => simp [insertOnce]
  | cons y ys ih =>
      rw [insertOnce]
      split
      · simp
      · split
        · simp
        · simpa using ih

/-- A document that is put into its place; it may have been there. -/
theorem Docids.insertOnce {low numDocs count doc : Nat} {docs : List Nat}
    (h : Docids low numDocs count docs) (hlow : low ≤ doc) (hdoc : doc < numDocs) :
    Docids low numDocs (insertOnce doc docs).length (insertOnce doc docs) where
  length_eq := rfl
  increasing := insertOnce_increasing h.increasing
  bounds d hd := by
    rcases mem_insertOnce.mp hd with rfl | hd
    · exact ⟨hlow, hdoc⟩
    · exact h.bounds d hd

section

variable (draws : Draws σ) {numDocs len : Nat} (hdocs : numDocs ≤ 2 ^ 32) (hlen : len ≤ numDocs)

include hdocs hlen

/-- Docids are drawn until they are enough, so there are not more. -/
theorem drawDistinct_docids (rounds : Nat) {docs : List Nat}
    (h : Docids 0 numDocs docs.length docs) (hfew : docs.length ≤ len) :
    Answers False (drawDistinct draws numDocs len rounds docs) (Docids 0 numDocs len) := by
  have hends : len ≤ docs.length → Docids 0 numDocs len docs := by
    intro henough
    rwa [Nat.le_antisymm hfew henough] at h
  induction rounds generalizing docs with
  | zero =>
      rw [drawDistinct]
      split
      · exact .pure (hends ‹_›)
      · exact .failure
  | succ rounds ih =>
      rw [drawDistinct]
      split
      · exact .pure (hends ‹_›)
      · rename_i hmore
        refine (Answers.lift (Always.below draws (show 0 < numDocs by omega))).bind
          fun doc hdoc => ?_
        rw [docidOf_of_lt hdoc hdocs]
        have hgrown := length_insertOnce_le doc docs
        have hnext := h.insertOnce (Nat.zero_le doc) hdoc
        refine ih hnext (by omega) fun henough => ?_
        rwa [show (insertOnce doc docs).length = len by omega] at hnext

/-! ## Both shapes -/

/-- Of more than half of the documents nothing is drawn twice. -/
theorem uniformDocs_docids (rounds : Nat) :
    Answers (numDocs < 2 * len) (uniformDocs draws rounds len numDocs) (Docids 0 numDocs len) := by
  rw [uniformDocs]
  split
  · have hselect := select_docids draws hdocs hlen (Nat.le_refl numDocs)
    rw [Nat.sub_self] at hselect
    exact .lift hselect
  · rename_i hfew
    have hnone : Docids 0 numDocs ([] : List Nat).length [] := .nil
    exact (drawDistinct_docids draws hdocs hlen rounds hnone (Nat.zero_le len)).weaken hfew

theorem clusteredDocs_docids : Always (clusteredDocs draws len numDocs) (Docids 0 numDocs len) :=
  cluster_docids draws hdocs (by omega)

end

/-! ## Slack that is taken -/

/-- From every state the computation goes without a fault, and does what the sampler does. -/
structure Agrees (c : StateT σ Option α) (x : StateM σ α) : Prop where
  run : ∀ s, c.run s = some (x.run s)

/-- A draw, in which nothing can fault. -/
def drawn (x : StateM σ α) : StateT σ Option α := fun s => some (x.run s)

namespace Agrees

theorem drawn (x : StateM σ α) : Agrees (drawn x) x :=
  ⟨fun _ => rfl⟩

theorem pure (a : α) : Agrees (Pure.pure a : StateT σ Option α) (Pure.pure a) :=
  ⟨fun _ => rfl⟩

/-- In sequence, the second need agree only behind what the first can answer. -/
theorem bind {c : StateT σ Option α} {x : StateM σ α} {g : α → StateT σ Option β}
    {f : α → StateM σ β} (hx : Agrees c x) (hgood : Always x good)
    (hf : ∀ a, good a → Agrees (g a) (f a)) : Agrees (c >>= g) (x >>= f) := by
  refine ⟨fun s => ?_⟩
  rw [StateT.run_bind, hx.run]
  exact (hf _ (hgood.run s)).run _

/-- An operation that does not fault leaves its result. -/
theorem after {o : Option α} {a : α} {g : α → StateT σ Option β} {x : StateM σ β}
    (h : o = some a) (hx : Agrees (g a) x) : Agrees (liftM o >>= g) x := by
  subst h
  exact hx

end Agrees

section

variable (draws : Draws σ)

/-- The docids of a cluster in words of 64 bits: the slack that a gap takes has to be there,
and the document behind a docid has to have a number. -/
def checkedCluster : (count start slack run : Nat) → StateT σ Option (List Nat)
  | 0, _, _, _ => return []
  | count + 1, start, slack, 0 => do
      let run ← drawn (draws.between 64 1 256)
      let jump ← drawn (draws.between 64 0 (slack / 4))
      let slack ← Checked.sub slack jump
      let doc ← Checked.add 64 start jump
      let start ← Checked.add 64 doc 1
      return docidOf doc :: (← checkedCluster count start slack run)
  | count + 1, start, slack, run + 1 => do
      let gap ← drawn (draws.between 64 0 (min slack 3))
      let slack ← Checked.sub slack gap
      let doc ← Checked.add 64 start gap
      let start ← Checked.add 64 doc 1
      return docidOf doc :: (← checkedCluster count start slack run)

/-- No gap takes more slack than there is. -/
theorem checkedCluster_agrees {count start slack run : Nat}
    (h : start + count + slack < 2 ^ 64) :
    Agrees (checkedCluster draws count start slack run) (cluster draws count start slack run) := by
  induction count generalizing start slack run with
  | zero => exact .pure []
  | succ count ih =>
      have hrest : ∀ gap run, gap ≤ slack →
          Agrees (checkedCluster draws count (start + gap + 1) (slack - gap) run)
            (cluster draws count (start + gap + 1) (slack - gap) run) :=
        fun gap run hgap => ih (by omega)
      cases run with
      | zero =>
          rw [checkedCluster, cluster]
          refine (Agrees.drawn _).bind (.any _) fun run _ => ?_
          refine (Agrees.drawn _).bind (.between draws (Nat.zero_le _)) fun jump hjump => ?_
          have hsub : jump ≤ slack := by omega
          refine .after (if_pos hsub) (.after (if_pos (by omega)) (.after (if_pos (by omega)) ?_))
          exact (hrest jump run hsub).bind (.any _) fun docs _ => .pure _
      | succ run =>
          rw [checkedCluster, cluster]
          refine (Agrees.drawn _).bind (.between draws (Nat.zero_le _)) fun gap hgap => ?_
          have hsub : gap ≤ slack := by omega
          refine .after (if_pos hsub) (.after (if_pos (by omega)) (.after (if_pos (by omega)) ?_))
          exact (hrest gap run hsub).bind (.any _) fun docs _ => .pure _

end

end Sample
end Postings
