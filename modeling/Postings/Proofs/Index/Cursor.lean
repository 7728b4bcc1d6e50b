import Postings.Index.Cursor
import Postings.Proofs.Sequence.PrefixSums

/-!
# Walking the postings of a term

A document cursor is a cursor over docids, which moves, and beside it one over the
running sums of the frequencies, which stays wherever a frequency was asked for last.
The second one never matters to the first: wherever it stands, it can be moved to the
position that the first one tells.

A document cursor *reads* a list of docids and frequencies when every finite run of
moves that are allowed on the docids, questions for a frequency among them, succeeds and
ends at a cursor that shows the position, the docid and the frequency there.
-/

namespace Postings

open SequenceCursor

/-! ## Moves -/

/-- One move of a document cursor.  A question for a frequency is a move too: it moves
the cursor over the frequencies. -/
inductive DocumentMove where
  | reset
  | next
  | nextGeq (bound : Nat)
  | moveTo (position : Nat)
  | freq

namespace DocumentMove

/-- A move is allowed by where the cursor stands among the docids. -/
def Allowed (p : Plain) : DocumentMove → Prop
  | .reset => True
  | .next => p.position < p.values.length
  | .nextGeq _ => True
  | .moveTo position => position ≤ p.values.length
  | .freq => p.position < p.values.length

/-- The plain cursor over the docids after a move. -/
def apply (p : Plain) : DocumentMove → Plain
  | .reset => { p with position := 0 }
  | .next => { p with position := p.position + 1 }
  | .nextGeq bound => p.nextGeq bound
  | .moveTo position => { p with position }
  | .freq => p

/-- Each of the moves is allowed where the ones before it lead. -/
def AllAllowed (p : Plain) : List DocumentMove → Prop
  | [] => True
  | m :: moves => m.Allowed p ∧ AllAllowed (m.apply p) moves

theorem apply_values (p : Plain) (m : DocumentMove) : (m.apply p).values = p.values := by
  cases m <;> rfl

end DocumentMove

namespace DocumentCursor

variable {scheme : Scheme}

/-- One move of a document cursor. -/
def perform (c : DocumentCursor scheme) : DocumentMove → Except Failure (DocumentCursor scheme)
  | .reset => c.reset
  | .next => c.next
  | .nextGeq bound => c.nextGeq bound
  | .moveTo position => c.moveTo position
  | .freq => do
      let (_, c) ← c.freq
      return c

/-- Moves of a document cursor, one after another. -/
def run (c : DocumentCursor scheme) : List DocumentMove → Except Failure (DocumentCursor scheme)
  | [] => .ok c
  | m :: moves => do run (← c.perform m) moves

/-- A document cursor shows what is there in memory. -/
structure Shows (c : DocumentCursor scheme) (p : Plain) (freqs : List Nat) (occurrences : Nat) :
    Prop where
  size_eq : c.size = p.values.length
  occurrences_eq : c.occurrences = occurrences
  position_eq : c.position = p.position
  docid_eq : c.docid = p.value
  freq_eq : p.position < p.values.length →
    ∃ freq c', freqs[p.position]? = some freq ∧ c.freq = .ok (freq, c')

/-- Every allowed run of moves succeeds and leads to what is there in memory. -/
def Reads (c : DocumentCursor scheme) (p : Plain) (freqs : List Nat) (occurrences : Nat) : Prop :=
  ∀ moves, DocumentMove.AllAllowed p moves →
    ∃ c', c.run moves = .ok c' ∧ Shows c' (moves.foldl DocumentMove.apply p) freqs occurrences

/-! ## Two cursors -/

/-- One cursor follows the docids, the other the sums of the frequencies, from wherever
it stands. -/
structure Follow (c : DocumentCursor scheme) (p : Plain) (sums : List Nat)
    (univ occurrences : Nat) : Prop where
  docs : Follows c.docs p
  freqs : ∃ before, Follows c.freqs.sums ⟨sums, univ, before⟩
  occurrences_eq : c.occurrences = occurrences

namespace Follow

variable {c : DocumentCursor scheme} {p : Plain} {freqs sums : List Nat} {univ occurrences : Nat}

/-- A frequency is told, and only the cursor over the frequencies moves. -/
theorem exists_freq (h : Follow c p sums univ occurrences)
    (hsums : PrefixSums.sumsOf 0 0 freqs = .ok sums)
    (hlength : p.values.length = freqs.length) (hp : p.position < p.values.length) :
    ∃ freq c', freqs[p.position]? = some freq ∧ c.freq = .ok (freq, c') ∧
      Follow c' p sums univ occurrences := by
  obtain ⟨before, hbefore⟩ := h.freqs
  have hlt : p.position < freqs.length := hlength ▸ hp
  obtain ⟨moved, hmove, hfollows⟩ := PrefixSums.Cursor.moveTo_eq hsums hbefore hlt
  have hposition : c.position = p.position := h.docs.agrees.position_eq
  refine ⟨freqs[p.position], { c with freqs := moved }, List.getElem?_eq_getElem hlt, ?_,
    ⟨h.docs, ⟨p.position, hfollows⟩, h.occurrences_eq⟩⟩
  rw [freq, hposition, hmove]
  rfl

theorem shows (h : Follow c p sums univ occurrences)
    (hsums : PrefixSums.sumsOf 0 0 freqs = .ok sums)
    (hlength : p.values.length = freqs.length) : Shows c p freqs occurrences where
  size_eq := h.docs.agrees.size_eq
  occurrences_eq := h.occurrences_eq
  position_eq := h.docs.agrees.position_eq
  docid_eq := h.docs.agrees.value_eq
  freq_eq hp := by
    obtain ⟨freq, c', hfreq, hc', -⟩ := h.exists_freq hsums hlength hp
    exact ⟨freq, c', hfreq, hc'⟩

/-- The cursor over the docids moves, and the other one stays. -/
theorem moved (h : Follow c p sums univ occurrences) {docs : scheme.docs.Cursor} {p' : Plain}
    (hdocs : Follows docs p') : Follow { c with docs } p' sums univ occurrences :=
  ⟨hdocs, h.freqs, h.occurrences_eq⟩

/-- Any move leaves the two cursors following. -/
theorem step (h : Follow c p sums univ occurrences) (hsums : PrefixSums.sumsOf 0 0 freqs = .ok sums)
    (hlength : p.values.length = freqs.length) {m : DocumentMove} (hm : m.Allowed p) :
    ∃ c', c.perform m = .ok c' ∧ Follow c' (m.apply p) sums univ occurrences := by
  cases m with
  | reset =>
      obtain ⟨docs, hdocs, hfollows⟩ := h.docs.moveTo (Nat.zero_le p.values.length)
      refine ⟨{ c with docs }, ?_, h.moved hfollows⟩
      rw [perform, reset, moveTo, hdocs]
      rfl
  | next =>
      obtain ⟨docs, hdocs, hfollows⟩ := h.docs.next hm
      refine ⟨{ c with docs }, ?_, h.moved hfollows⟩
      rw [perform, next, hdocs]
      rfl
  | nextGeq bound =>
      obtain ⟨docs, hdocs, hfollows⟩ := h.docs.nextGeq bound
      refine ⟨{ c with docs }, ?_, h.moved hfollows⟩
      rw [perform, nextGeq, hdocs]
      rfl
  | moveTo position =>
      obtain ⟨docs, hdocs, hfollows⟩ := h.docs.moveTo hm
      refine ⟨{ c with docs }, ?_, h.moved hfollows⟩
      rw [perform, moveTo, hdocs]
      rfl
  | freq =>
      obtain ⟨freq, c', -, hc', hfollows⟩ := h.exists_freq hsums hlength hm
      refine ⟨c', ?_, hfollows⟩
      rw [perform, hc']
      rfl

/-- **Two cursors that follow read the postings.** -/
theorem reads (h : Follow c p sums univ occurrences)
    (hsums : PrefixSums.sumsOf 0 0 freqs = .ok sums)
    (hlength : p.values.length = freqs.length) : Reads c p freqs occurrences := by
  intro moves
  induction moves generalizing c p with
  | nil =>
      intro _
      exact ⟨c, rfl, h.shows hsums hlength⟩
  | cons m moves ih =>
      rintro ⟨hm, hmoves⟩
      obtain ⟨c', hc', hfollow⟩ := h.step hsums hlength hm
      have hlength' : (m.apply p).values.length = freqs.length := by
        rw [DocumentMove.apply_values, hlength]
      obtain ⟨last, hlast, hshows⟩ := ih hfollow hlength' hmoves
      refine ⟨last, ?_, hshows⟩
      rw [run, hc']
      exact hlast

end Follow
end DocumentCursor
end Postings
