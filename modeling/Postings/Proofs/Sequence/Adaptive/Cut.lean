import Postings.Proofs.Sequence.GapBlocks.Cut
import Postings.Sequence.Adaptive

/-!
# Any of three encodings, cut off

All numbers need no bits.  A bitmap is only opened when all of it is there; a walk over
it may look for bits behind it, and finds in the cut either what the whole has there or
nothing.  Blocks are those of gaps.  The byte that tells them apart is read when it is
there, so the reader of the cut takes the branch that the reader of the whole takes.
-/

namespace Postings
namespace Adaptive

open SequenceCursor BitString

/-- A range that is there in the cut is there in the whole. -/
theorem checkRange_mirrors {v cut : BitString} (h : v.Extends cut) (element : String)
    (pos bits : Nat) {α β : Type} {r : α → β → Prop} {f : Unit → Except Failure α}
    {g : Unit → Except Failure β}
    (hfg : pos + bits ≤ cut.size → Mirrors (Failure.RefusedIf True) r (f ()) (g ())) :
    Mirrors (Failure.RefusedIf True) r
      (liftM (cut.checkRange element pos bits) >>= f)
        (liftM (v.checkRange element pos bits) >>= g) := by
  have hsize := h.size_le
  by_cases hfits : pos + bits ≤ cut.size
  · rw [checkRange, checkRange, if_pos hfits, if_pos (by omega)]
    exact hfg hfits
  · rw [checkRange, if_neg hfits]
    exact ⟨trivial, _, rfl⟩

/-! ## A bitmap -/

namespace Bitmap

/-- A cursor over a bitmap that is there, in bits that were cut off behind it, and the
same cursor over the whole bits. -/
structure Cut (v : BitString) (c d : Bitmap) : Prop where
  eq : d = { c with bits := v }
  whole : v.Extends c.bits
  fits : c.start + c.univ ≤ c.bits.size
  bitPos_le : c.bitPos ≤ c.bits.size

/-- What is found in the cut is found in the whole. -/
theorem found_mirrors {v cut : BitString} (h : v.Extends cut) (pos k : Nat) :
    Mirrors (Failure.CorruptIf True) (fun a b => b = a ∧ a < cut.size)
      (found (cut.selectOne pos k)) (found (v.selectOne pos k)) := by
  cases hcut : cut.selectOne pos k with
  | none => exact ⟨trivial, _, rfl⟩
  | some one =>
      rw [h.selectOne_eq hcut]
      exact .pure ⟨rfl, (selectOne_eq_some.mp hcut).2.1⟩

variable {v : BitString} {c d : Bitmap}

namespace Cut

theorem atEnd (h : Cut v c d) : Cut v c.atEnd d.atEnd := by
  obtain ⟨rfl, hwhole, hfits, -⟩ := h
  exact ⟨rfl, hwhole, hfits, hfits⟩

theorem standAt (h : Cut v c d) {position bitPos : Nat} (hle : bitPos ≤ c.bits.size) :
    Cut v (c.standAt position bitPos) (d.standAt position bitPos) := by
  obtain ⟨rfl, hwhole, hfits, -⟩ := h
  exact ⟨rfl, hwhole, hfits, hle⟩

/-- The cursor stands where a bit is found. -/
theorem standAt_found (h : Cut v c d) (position pos k : Nat) :
    Mirrors (Failure.CorruptIf True) (Cut v)
      (do return c.standAt position (← found (c.bits.selectOne pos k)))
      (do return d.standAt position (← found (v.selectOne pos k))) := by
  refine (found_mirrors h.whole pos k).bind ?_
  rintro bitPos _ ⟨rfl, hlt⟩
  exact .pure (h.standAt (Nat.le_of_lt hlt))

theorem moveTo (h : Cut v c d) (position : Nat) :
    Mirrors (Failure.CorruptIf True) (Cut v) (c.moveTo position) (d.moveTo position) := by
  have hd := h.eq
  subst hd
  rw [Bitmap.moveTo, Bitmap.moveTo]
  exact .ite Iff.rfl (fun _ => .pure h.atEnd) fun _ =>
    .ite Iff.rfl (fun _ => h.standAt_found _ _ _) fun _ => h.standAt_found _ _ _

theorem next (h : Cut v c d) :
    Mirrors (Failure.CorruptIf True) (Cut v) c.next d.next := by
  have hd := h.eq
  subst hd
  rw [Bitmap.next, Bitmap.next]
  exact .ite Iff.rfl (fun _ => .pure h.atEnd) fun _ => h.standAt_found _ _ 0

theorem nextGeq (h : Cut v c d) (bound : Nat) : Cut v (c.nextGeq bound) (d.nextGeq bound) := by
  have hd := h.eq
  subst hd
  have hfirst := h.whole.filter_nextOne_eq (c.start + bound) h.fits
  rw [Bitmap.nextGeq, Bitmap.nextGeq]
  simp only [hfirst]
  by_cases huniv : c.univ ≤ bound
  · rw [if_pos huniv, if_pos huniv]
    exact h.atEnd
  rw [if_neg huniv, if_neg huniv]
  cases hhit : (c.bits.nextOne (c.start + bound)).filter (· < c.start + c.univ) with
  | none => exact h.atEnd
  | some hit =>
      have hfits := h.fits
      obtain ⟨hnext, hlt⟩ := Option.filter_eq_some_iff.mp hhit
      have hlt := of_decide_eq_true hlt
      have hge := (nextOne_eq_some.mp hnext).1
      have hstart : v.countOnes c.start hit = c.bits.countOnes c.start hit :=
        h.whole.countOnes_eq (by omega) (by omega)
      have hposition : (if c.position < c.n ∧ c.bitPos ≤ hit then
            c.position + v.countOnes c.bitPos hit else v.countOnes c.start hit) =
          if c.position < c.n ∧ c.bitPos ≤ hit then c.position + c.bits.countOnes c.bitPos hit
            else c.bits.countOnes c.start hit := by
        split
        · rename_i hahead
          rw [h.whole.countOnes_eq hahead.2 (by omega)]
        · exact hstart
      simp only [hposition]
      exact h.standAt (by omega)

theorem prevValue (h : Cut v c d) :
    Mirrors (Failure.CorruptIf True) Eq c.prevValue d.prevValue := by
  have hd := h.eq
  subst hd
  rw [Bitmap.prevValue, Bitmap.prevValue]
  refine .ite Iff.rfl (fun _ => .pure rfl) fun _ => ?_
  rw [h.whole.prevOne_eq h.bitPos_le]
  cases c.bits.prevOne c.bitPos with
  | none => exact ⟨trivial, _, rfl⟩
  | some one => exact .pure rfl

theorem perform (h : Cut v c d) (m : Move) :
    Mirrors (Failure.CorruptIf True) (Cut v) (perform c m) (perform d m) := by
  cases m with
  | moveTo position => exact h.moveTo position
  | next => exact h.next
  | nextGeq bound => exact .pure (h.nextGeq bound)

end Cut

/-- A bitmap opens where a walk finds its first bit again. -/
theorem exists_moveTo_zero {bits : BitString} {start univ first : Nat}
    (h : (bits.nextOne start).filter (· < start + univ) = some first) (n : Nat) :
    ∃ c', moveTo ⟨bits, start, univ, n, 0, first - start, first⟩ 0 = .ok c' := by
  obtain ⟨hselect, -⟩ := Option.filter_eq_some_iff.mp h
  change bits.selectOne start 0 = some first at hselect
  rw [Bitmap.moveTo]
  by_cases hn : 0 = n
  · exact ⟨_, if_pos hn⟩
  · refine ⟨standAt ⟨bits, start, univ, n, 0, first - start, first⟩ 0 first, ?_⟩
    rw [if_neg hn, if_neg fun hahead => Nat.lt_irrefl 0 hahead.1]
    simp only [hselect]
    rfl

/-- A bitmap opens at its first bit, if all of it is there. -/
theorem openAt_mirrors {cut : BitString} (h : v.Extends cut) (start univ n : Nat) :
    Mirrors (Failure.RefusedIf True) (fun c d => Cut v c d ∧ ∃ c', c.moveTo 0 = .ok c')
      (openAt cut start univ n) (openAt v start univ n) := by
  rw [openAt, openAt]
  refine checkRange_mirrors h _ _ _ fun hfits => ?_
  rw [h.filter_nextOne_eq start hfits]
  cases hfirst : (cut.nextOne start).filter (· < start + univ) with
  | none => exact ⟨trivial, _, rfl⟩
  | some first =>
      have hlt := of_decide_eq_true (Option.filter_eq_some_iff.mp hfirst).2
      exact .pure ⟨⟨rfl, h, hfits, Nat.le_of_lt (Nat.lt_of_lt_of_le hlt hfits)⟩,
        exists_moveTo_zero hfirst n⟩

end Bitmap

/-! ## Any encoding -/

namespace Cursor

/-- A cursor over what is left of a region, and the one over the whole of it. -/
inductive Cut (v : BitString) (more : List UInt8) : Cursor → Cursor → Prop where
  | allOnes (c : AllOnes) : Cut v more (allOnes c) (allOnes c)
  | bitmap {c d : Bitmap} (cut : Bitmap.Cut v c d) : Cut v more (bitmap c) (bitmap d)
  | blocks (c : GapBlocks.Cursor) : Cut v more (blocks c) (blocks (c.followedBy more))

variable {v : BitString} {more : List UInt8}

theorem Cut.perform {c d : Cursor} (h : Cut v more c d) (m : Move) :
    Mirrors (Failure.CorruptIf True) (Cut v more) (perform c m) (perform d m) := by
  cases h with
  | allOnes c => cases m <;> exact .pure (.allOnes _)
  | @bitmap c d h =>
      have hmap : ∀ c : Bitmap, SequenceCursor.perform (Cursor.bitmap c) m =
          Cursor.bitmap <$> SequenceCursor.perform c m := fun _ => by cases m <;> rfl
      rw [hmap, hmap]
      exact (h.perform m).map fun _ _ => .bitmap
  | blocks c =>
      have hmap : ∀ c : GapBlocks.Cursor, SequenceCursor.perform (Cursor.blocks c) m =
          Cursor.blocks <$> SequenceCursor.perform c m := fun _ => by cases m <;> rfl
      rw [hmap, hmap]
      refine (GapBlocks.Cursor.misses_perform c m).map ?_
      rintro c' _ rfl
      exact .blocks c'

theorem Cut.followsUnless {c d : Cursor} (h : Cut v more c d) {p : Plain} (hd : Follows d p) :
    FollowsUnless True c p := by
  refine FollowsUnless.of_mirrors (r := Cut v more) (fun c d h => ?_)
    (fun c d m h => h.perform m) h hd
  cases h with
  | allOnes c => exact ⟨rfl, rfl, rfl, .pure rfl⟩
  | bitmap h =>
      have hprev := h.prevValue
      obtain ⟨rfl, -⟩ := h
      exact ⟨rfl, rfl, rfl, hprev⟩
  | blocks c => exact ⟨rfl, rfl, rfl, .pure rfl⟩

end Cursor

theorem openAt_mirrors {codec : Codec} {v cut : BitString} (h : v.Extends cut)
    (haligned : cut.size % 8 = 0) (pos univ n : Nat) (params : Params) :
    ∃ more, Mirrors (Failure.RefusedIf True)
      (fun c d => Cursor.Cut v more c d ∧ ∃ c', moveTo c 0 = .ok c')
      (openAt codec cut pos univ n params) (openAt codec v pos univ n params) := by
  obtain ⟨more, hblocks⟩ := @GapBlocks.openAt_mirrors codec v cut h haligned (alignUp pos 8 + 8)
    univ n params
  refine ⟨more, ?_⟩
  rw [openAt, openAt]
  refine .ite Iff.rfl (fun _ => .pure ⟨.allOnes _, _, rfl⟩) fun _ => ?_
  refine checkRange_mirrors h _ _ _ fun hfits => ?_
  rw [h.getBits_eq (by omega) hfits]
  refine .ite Iff.rfl (fun _ => ?_) fun _ => .ite Iff.rfl (fun _ => ?_) fun _ => ⟨trivial, _, rfl⟩
  · refine (Bitmap.openAt_mirrors h (alignUp pos 8 + 8) univ n).bind ?_
    rintro c d ⟨hcut, c', hc'⟩
    refine .pure ⟨.bitmap hcut, .bitmap c', ?_⟩
    change Cursor.bitmap <$> c.moveTo 0 = _
    rw [hc']
    rfl
  · refine hblocks.bind ?_
    rintro c _ ⟨rfl, hfirst⟩
    obtain ⟨c', hc'⟩ := GapBlocks.Cursor.exists_moveTo_zero hfirst
    refine .pure ⟨.blocks c, .blocks c', ?_⟩
    change Cursor.blocks <$> c.moveTo 0 = _
    rw [hc']
    rfl

/-- **The cheapest of three encodings withstands cuts.** -/
theorem withstandsCuts (codec : Codec) (params : Params) :
    (format codec).WithstandsCuts params := by
  intro v cut hextends haligned pos univ values hopens
  obtain ⟨d, hd, hfollows⟩ := hopens
  obtain ⟨more, hmirrors⟩ := @openAt_mirrors codec v cut hextends haligned pos univ values.length
    params
  refine (hmirrors.yields hd).imp ?_
  rintro c ⟨hcut, hfirst⟩
  exact ⟨hcut.followsUnless hfollows, hfirst⟩

end Adaptive
end Postings
