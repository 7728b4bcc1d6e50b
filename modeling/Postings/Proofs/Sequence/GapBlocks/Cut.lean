import Postings.Proofs.Bits.Cut
import Postings.Proofs.Codec.Exact
import Postings.Proofs.Sequence.Damage
import Postings.Sequence.GapBlocks

/-!
# Blocks of gaps that were cut off

A cursor over the front of the bytes is the one over all of them but for the bytes that
it misses.  It looks at bytes only to decode a block.  A block that it decodes is the
one that is there; one of which bytes are missing is damage.  All other steps go by what
has been decoded.
-/

namespace Postings
namespace GapBlocks

open SequenceCursor

namespace Cursor

/-- The same cursor with `more` bytes behind its own. -/
def followedBy (c : Cursor) (more : List UInt8) : Cursor :=
  { c with bytes := c.bytes ++ more, rest := c.rest ++ more }

variable (more : List UInt8)

/-- A step of a cursor that misses bytes does what the step of the whole one does, or
finds the bytes missing. -/
abbrev Misses (x y : Except Failure Cursor) : Prop :=
  Mirrors (Failure.CorruptIf True) (fun c d => d = c.followedBy more) x y

variable {more}

/-! ## Decoding -/

theorem decodeNext_followedBy {c c' : Cursor} (h : c.decodeNext = .ok c') :
    (c.followedBy more).decodeNext = .ok (c'.followedBy more) := by
  rw [decodeNext] at h ⊢
  obtain ⟨⟨gaps, consumed⟩, hdecode, h⟩ := exists_of_bind_eq_ok h
  obtain rfl := Except.ok.inj h
  obtain ⟨hmore, hconsumed⟩ := Codec.decode_append hdecode more
  have hrest : (c.rest ++ more).drop consumed = c.rest.drop consumed ++ more :=
    List.drop_append_of_le_length hconsumed
  simp only [followedBy]
  rw [hmore]
  simp only [bind, Except.bind, pure, Except.pure, hrest]
  rfl

theorem decoded_of_decodeNext {c c' : Cursor} (h : c.decodeNext = .ok c') :
    c'.decoded = c.decoded + 1 := by
  rw [decodeNext] at h
  obtain ⟨answer, -, h⟩ := exists_of_bind_eq_ok h
  obtain rfl := Except.ok.inj h
  rfl

theorem misses_advance (c : Cursor) : Misses more c.advance (c.followedBy more).advance := by
  rw [advance, advance]
  cases h : c.decodeNext with
  | error e => exact ⟨trivial, e, rfl⟩
  | ok c' =>
      rw [decodeNext_followedBy h]
      exact ⟨_, rfl, rfl⟩

theorem misses_advanceBy (c : Cursor) (k : Nat) :
    Misses more (c.advanceBy k) ((c.followedBy more).advanceBy k) := by
  induction k generalizing c with
  | zero => exact .pure rfl
  | succ k ih =>
      refine (misses_advance c).bind ?_
      rintro c' _ rfl
      exact ih c'

theorem misses_restart (c : Cursor) : Misses more c.restart (c.followedBy more).restart :=
  misses_advance { c with decoded := 0, rest := c.bytes, beforeBlock := none }

/-! ## Moving -/

theorem misses_moveWithin (c : Cursor) (position : Nat) :
    Misses more (c.moveWithin position) ((c.followedBy more).moveWithin position) := by
  have hforward : ∀ c : Cursor, Misses more
      (do
        let c ← c.advanceBy (position / Codec.blockSize + 1 - c.decoded)
        return c.standAt (position % Codec.blockSize))
      (do
        let c ← (c.followedBy more).advanceBy (position / Codec.blockSize + 1 - c.decoded)
        return c.standAt (position % Codec.blockSize)) := by
    intro c
    refine (misses_advanceBy c _).bind ?_
    rintro last _ rfl
    exact .pure rfl
  rw [moveWithin, moveWithin]
  refine .ite Iff.rfl (fun _ => (misses_restart c).bind ?_) fun _ => hforward c
  rintro first _ rfl
  exact hforward first

theorem misses_moveTo (c : Cursor) (position : Nat) :
    Misses more (c.moveTo position) ((c.followedBy more).moveTo position) := by
  rw [moveTo, moveTo]
  refine .ite Iff.rfl (fun _ => .ite Iff.rfl (fun _ => ?_) fun _ => .pure rfl) fun _ =>
    misses_moveWithin c position
  refine (misses_moveWithin c _).bind ?_
  rintro last _ rfl
  exact .pure rfl

theorem misses_next (c : Cursor) : Misses more c.next (c.followedBy more).next := by
  rw [next, next]
  refine .ite Iff.rfl (fun _ => .pure rfl) fun _ => .ite Iff.rfl (fun _ => ?_) fun _ => .pure rfl
  refine (misses_advance c).bind ?_
  rintro c' _ rfl
  exact .pure rfl

/-! ## Searching -/

theorem misses_seek (c : Cursor) (bound left : Nat) :
    Misses more (c.seek bound left) ((c.followedBy more).seek bound left) := by
  induction left generalizing c with
  | zero =>
      rw [seek, seek]
      refine .pure ?_
      by_cases hreach : bound ≤ c.lastOfBlock
      · rw [if_pos hreach]
        exact if_pos hreach
      · rw [if_neg hreach]
        exact if_neg hreach
  | succ left ih =>
      rw [seek, seek]
      refine .ite Iff.rfl (fun _ => .pure rfl) fun _ => (misses_advance c).bind ?_
      rintro c' _ rfl
      exact ih c'

theorem misses_nextGeq (c : Cursor) (bound : Nat) :
    Misses more (c.nextGeq bound) ((c.followedBy more).nextGeq bound) := by
  have hsearch : ∀ c : Cursor, Misses more
      (if c.position = c.n then return c.atEnd else c.seek bound c.blocksLeft)
      (if (c.followedBy more).position = (c.followedBy more).n then return (c.followedBy more).atEnd
        else (c.followedBy more).seek bound (c.followedBy more).blocksLeft) := fun c =>
    .ite Iff.rfl (fun _ => .pure rfl) fun _ => misses_seek c bound _
  rw [nextGeq, nextGeq]
  refine .ite Iff.rfl (fun _ => .pure rfl) fun _ => .ite Iff.rfl (fun _ => ?_) fun _ => hsearch c
  refine (misses_restart c).bind ?_
  rintro first _ rfl
  exact hsearch (first.standAt 0)

/-! ## Any move -/

theorem misses_perform (c : Cursor) (m : Move) :
    Misses more (perform c m) (perform (c.followedBy more) m) := by
  cases m with
  | moveTo position => exact misses_moveTo c position
  | next => exact misses_next c
  | nextGeq bound => exact misses_nextGeq c bound

/-- A cursor that misses bytes follows what the whole one follows, unless damaged. -/
theorem followsUnless {c : Cursor} {p : Plain} (h : Follows (c.followedBy more) p) :
    FollowsUnless True c p := by
  refine FollowsUnless.of_mirrors (r := fun c d => d = c.followedBy more) ?_ ?_ rfl h
  · rintro c _ rfl
    exact ⟨rfl, rfl, rfl, .pure rfl⟩
  · rintro c _ m rfl
    exact misses_perform c m

/-- The first position is in the first block. -/
theorem moveTo_zero {c : Cursor} (hn : 0 < c.n) (h : c.decoded = 1) :
    c.moveTo 0 = .ok (c.standAt 0) := by
  have hback : ¬ 0 / Codec.blockSize + 1 < c.decoded := by rw [h]; decide
  have hstay : c.advanceBy (0 / Codec.blockSize + 1 - c.decoded) = .ok c := by rw [h]; rfl
  rw [moveTo, if_neg (Nat.ne_of_lt hn), moveWithin, if_neg hback]
  simp only [pure_bind, hstay]
  rfl

theorem exists_moveTo_zero {c : Cursor} (h : c.n = 0 ∨ c.decoded = 1) :
    ∃ c', c.moveTo 0 = .ok c' := by
  by_cases hzero : c.n = 0
  · exact ⟨c.atEnd, by rw [moveTo, if_pos hzero.symm, if_neg (by omega)]; rfl⟩
  · exact ⟨_, moveTo_zero (Nat.pos_of_ne_zero hzero) (by omega)⟩

end Cursor

/-! ## Opening -/

theorem openAt_mirrors {codec : Codec} {v cut : BitString} (h : v.Extends cut)
    (haligned : cut.size % 8 = 0) (pos univ n : Nat) (params : Params) :
    ∃ more, Mirrors (Failure.RefusedIf True)
      (fun c d => d = c.followedBy more ∧ (c.n = 0 ∨ c.decoded = 1))
      (openAt codec cut pos univ n params) (openAt codec v pos univ n params) := by
  obtain ⟨more, hmore⟩ := h.exists_bytesFrom haligned (alignUp pos 8)
  refine ⟨more, ?_⟩
  rw [openAt, openAt, hmore]
  refine .ite Iff.rfl (fun hn => .pure ⟨rfl, .inl hn⟩) fun _ => ?_
  generalize hc : (⟨codec, cut.bytesFrom (alignUp pos 8), n, univ, [], 0,
    cut.bytesFrom (alignUp pos 8), none, 0, n, univ⟩ : Cursor) = c
  have hmirrors : Mirrors (Failure.RefusedIf True)
      (fun c d => d = c.followedBy more ∧ (c.n = 0 ∨ c.decoded = 1))
      (do return (← c.decodeNext).standAt 0 : Except Failure Cursor)
      (do return (← (c.followedBy more).decodeNext).standAt 0) := by
    cases hfirst : c.decodeNext with
    | error e => exact ⟨trivial, e, rfl⟩
    | ok first =>
        have hone : first.decoded = 1 := by
          rw [Cursor.decoded_of_decodeNext hfirst, ← hc]
        rw [Cursor.decodeNext_followedBy hfirst]
        exact .pure ⟨rfl, .inr hone⟩
  rwa [← hc] at hmirrors ⊢

/-- **Blocks of gaps withstand cuts.** -/
theorem withstandsCuts (codec : Codec) (params : Params) :
    (format codec).WithstandsCuts params := by
  intro v cut hextends haligned pos univ values hopens
  obtain ⟨d, hd, hfollows⟩ := hopens
  obtain ⟨more, hmirrors⟩ := @openAt_mirrors codec v cut hextends haligned pos univ values.length
    params
  refine (hmirrors.yields hd).imp ?_
  rintro c ⟨rfl, hfirst⟩
  exact ⟨Cursor.followsUnless hfollows, Cursor.exists_moveTo_zero hfirst⟩

end GapBlocks
end Postings
