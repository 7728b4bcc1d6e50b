import Postings.Proofs.Sequence.Adaptive.Cut
import Postings.Proofs.Sequence.Partitioned.Cut
import Postings.Sequence.Planned

/-!
# Opening arbitrary bits

The bits of a region may be anything.  Opening reads a header and tables, and whatever is
wrong with them is refused.  But opening also walks: it asks the tables for the bounds of
the first partition, and moves the cursor of the partition to its first position.  A walk
that misses something ends in damage, for which there is no refusal.

Of these moves one can fail.  The bounds of the first partition are the first two entries
of the table of upper bounds.  Elias-Fano, when it is opened, looks for the high bit of
the first entry only, and the one of the second may be missing.  So opening ends in damage
exactly if no bit is set behind the first high bit of that table.
-/

namespace Postings

open SequenceCursor BitString

/-! ## Damage in a computation -/

namespace Yields

variable {α β : Type} {x : Except Failure α} {wanted : α → Prop} {cause : Error}

/-- What is refused at most does not end in damage. -/
theorem ne_corrupt (h : Yields (Failure.RefusedIf True) x wanted) :
    x ≠ .error (.corrupt cause) := by
  rintro rfl
  obtain ⟨-, _, hcause⟩ := h
  cases hcause

/-- After what is refused at most, damage is damage of the rest. -/
theorem bind_corrupt_iff (h : Yields (Failure.RefusedIf True) x wanted) {f : α → Except Failure β} :
    x >>= f = .error (.corrupt cause) ↔ ∃ a, x = .ok a ∧ f a = .error (.corrupt cause) := by
  cases x with
  | error e =>
      obtain ⟨-, refusal, rfl⟩ := h
      constructor
      · intro hcorrupt
        cases hcorrupt
      · rintro ⟨_, hok, -⟩
        cases hok
  | ok a => exact ⟨fun hcorrupt => ⟨a, rfl, hcorrupt⟩, fun ⟨_, hok, hcorrupt⟩ =>
      Except.ok.inj hok ▸ hcorrupt⟩

end Yields

/-- Before what is refused at most, damage is damage of the first step. -/
theorem bind_eq_corrupt_iff {α β : Type} {x : Except Failure α} {f : α → Except Failure β}
    {wanted : β → Prop} (hf : ∀ a, x = .ok a → Yields (Failure.RefusedIf True) (f a) wanted)
    {cause : Error} : x >>= f = .error (.corrupt cause) ↔ x = .error (.corrupt cause) := by
  cases x with
  | error e =>
      constructor
      · rintro ⟨⟩
        rfl
      · rintro ⟨⟩
        rfl
  | ok a =>
      constructor
      · intro hcorrupt
        exact absurd hcorrupt (hf a rfl).ne_corrupt
      · rintro ⟨⟩

/-- The damage that a computation ends in, if it does. -/
def damageOf {α : Type} : Except Failure α → Option Error
  | .error (.corrupt cause) => some cause
  | _ => none

theorem eq_corrupt_of_damageOf {α : Type} {x : Except Failure α} {cause : Error}
    (h : damageOf x = some cause) : x = .error (.corrupt cause) := by
  unfold damageOf at h
  split at h
  · rw [Option.some.inj h]
  · cases h

/-! ## The partitions -/

/-- A region is refused, or opens to a cursor that finds its first position. -/
def Format.OpensAtFirst (f : Format) : Prop :=
  ∀ v pos univ n params, Yields (Failure.RefusedIf True) (f.openAt v pos univ n params) fun c =>
    ∃ c', moveTo c 0 = .ok c'

theorem GapBlocks.opensAtFirst (codec : Codec) : (format codec).OpensAtFirst := by
  intro v pos univ n params
  change Yields _ (openAt codec v pos univ n params) _
  rw [openAt]
  by_cases hn : n = 0
  · rw [if_pos hn]
    exact Cursor.exists_moveTo_zero (.inl hn)
  · rw [if_neg hn]
    generalize hc : (⟨codec, v.bytesFrom (alignUp pos 8), n, univ, [], 0,
      v.bytesFrom (alignUp pos 8), none, 0, n, univ⟩ : Cursor) = c
    cases hfirst : c.decodeNext with
    | error e => exact ⟨trivial, e, rfl⟩
    | ok first =>
        have hone : (first.standAt 0).decoded = 1 := by
          change first.decoded = 1
          rw [Cursor.decoded_of_decodeNext hfirst, ← hc]
        exact Cursor.exists_moveTo_zero (.inr hone)

theorem Adaptive.Bitmap.opensAtFirst (v : BitString) (start univ n : Nat) :
    Yields (Failure.RefusedIf True) (openAt v start univ n) fun c => ∃ c', c.moveTo 0 = .ok c' := by
  rw [openAt]
  refine (Partitioned.checkRange_yields _ _ _ _).bind fun _ _ => ?_
  cases hfirst : (v.nextOne start).filter (· < start + univ) with
  | none => exact ⟨trivial, _, rfl⟩
  | some first => exact exists_moveTo_zero hfirst n

theorem Adaptive.opensAtFirst (codec : Codec) : (format codec).OpensAtFirst := by
  intro v pos univ n params
  change Yields _ (openAt codec v pos univ n params) _
  rw [openAt]
  split
  · exact ⟨_, rfl⟩
  · refine (Partitioned.checkRange_yields _ _ _ _).bind fun _ _ => ?_
    dsimp only
    split
    · refine (Bitmap.opensAtFirst _ _ _ _).bind ?_
      rintro c ⟨c', hc'⟩
      refine ⟨.bitmap c', ?_⟩
      change Cursor.bitmap <$> c.moveTo 0 = _
      rw [hc']
      rfl
    · split
      · refine (GapBlocks.opensAtFirst codec _ _ _ _ params).bind ?_
        rintro (c : GapBlocks.Cursor) ⟨c', hc'⟩
        refine ⟨.blocks c', ?_⟩
        change c.moveTo 0 = _ at hc'
        change Cursor.blocks <$> c.moveTo 0 = _
        rw [hc']
        rfl
      · exact ⟨trivial, _, rfl⟩

/-! ## The tables -/

namespace EliasFano

/-- Nothing is set behind the cursor's high bit. -/
def Cursor.AtLastBit (c : Cursor) : Prop :=
  ∀ i, c.highPos < i → c.bits.bit i = false

/-- What a region opens to stands at the first value, whose high bit is set. -/
theorem of_openAt {v : BitString} {pos univ n : Nat} {params : Params} {c : Cursor}
    (h : openAt v pos univ n params = .ok c) (hn : 0 < n) :
    c.position = 0 ∧ c.layout.n = n ∧ c.bits.bit c.highPos = true := by
  rw [openAt] at h
  obtain ⟨-, -, h⟩ := exists_of_bind_eq_ok h
  rw [if_neg (Nat.ne_of_gt hn)] at h
  split at h
  · rename_i hfirst
    obtain rfl := Except.ok.inj h
    exact ⟨rfl, rfl, (nextOne_eq_some.mp (Option.filter_eq_some_iff.mp hfirst).1).2.1⟩
  · cases h

/-- The second high bit is missing if no bit is set behind the first, and otherwise the
second value and the one before it are shown. -/
theorem Cursor.moveTo_one {c : Cursor} (hfirst : c.position = 0) (hn : 1 < c.layout.n)
    (hbit : c.bits.bit c.highPos = true) :
    (c.AtLastBit ∧ c.moveTo 1 = .error (missing "high bit")) ∨
      ¬ c.AtLastBit ∧ ∃ c', c.moveTo 1 = .ok c' ∧ ∃ before, c'.prevValue = .ok before := by
  have hmove : c.moveTo 1 = do return c.standAt 1 (← c.highBit (c.highPos + 1) 0) := by
    rw [moveTo, hfirst, if_neg (by decide), if_neg (by omega), if_pos (by decide)]
  rw [hmove, highBit]
  cases hnext : c.bits.selectOne (c.highPos + 1) 0 with
  | none =>
      refine .inl ⟨fun i hi => ?_, rfl⟩
      -- A set bit there would have a first one before it, which is the next one.
      by_contra hset
      have hexists : ∃ i, c.highPos < i ∧ c.bits.bit i = true := ⟨i, hi, by simpa using hset⟩
      have hfound : c.bits.nextOne (c.highPos + 1) = some (Nat.find hexists) :=
        nextOne_eq_some.mpr ⟨(Nat.find_spec hexists).1, (Nat.find_spec hexists).2,
          fun j hj hlt => by
            simpa [Nat.lt_of_succ_le hj] using Nat.find_min hexists hlt⟩
      rw [BitString.nextOne, hnext] at hfound
      cases hfound
  | some second =>
      obtain ⟨hge, hset, hnone⟩ := nextOne_eq_some.mp hnext
      refine .inr ⟨fun hlast => ?_, c.standAt 1 second, rfl, c.read 0 c.highPos, ?_⟩
      · rw [hlast second hge] at hset
        cases hset
      · have hprev : c.bits.prevOne second = some c.highPos :=
          prevOne_eq_some.mpr ⟨hge, hbit, fun i hi hlt => hnone i hi hlt⟩
        rw [prevValue, if_neg (show ¬ (c.standAt 1 second).position = 0 from Nat.one_ne_zero),
          show (c.standAt 1 second).bits.prevOne (c.standAt 1 second).highPos = some c.highPos
            from hprev]
        rfl

end EliasFano

namespace Partitioned

variable {nested : Format} {table : TableFormat} {sizing : Sizing} {params : Params}
  {bits : BitString} {offset pos univ n : Nat} {cause : Error}

/-! ## The header -/

/-- A field is refused or read. -/
theorem readingFrom_yields_any {α : Type} (x : Reading α) (pos : Nat) :
    Yields (Failure.RefusedIf True) (readingFrom x pos) fun _ => True := by
  rw [readingFrom]
  split
  · trivial
  · exact ⟨trivial, _, rfl⟩

/-- The number of partitions is refused or positive. -/
theorem readingFrom_gammaPositive_yields (bits : BitString) (pos : Nat) :
    Yields (Failure.RefusedIf True) (readingFrom bits.gammaPositive pos) fun read =>
      0 < read.1 := by
  refine (readingFrom_yields_any bits.gammaPositive pos).failed_or.elim
    (fun ⟨e, he, hrefused⟩ => by rw [he]; exact hrefused) ?_
  rintro ⟨⟨count, stop⟩, hread, -⟩
  refine .of_ok hread ?_
  obtain ⟨gamma, mid, -, hrun⟩ := Attempt.of_runFrom_bind (runFrom_of_readingFrom hread)
  obtain ⟨hcount, -⟩ := Prod.mk.inj hrun
  exact (Except.ok.inj hcount).symm ▸ Nat.succ_pos gamma

/-- A layout as it is read: its cursors are where they were opened. -/
inductive Layout.Fresh (table : TableFormat) (params : Params) : Layout table → Prop where
  | single {l : Layout table} (hsizes : l.sizes = .single) (huppers : l.uppers = none) :
      Fresh table params l
  | several {l : Layout table} {v : BitString} {pos univ count : Nat} {uppers : table.Cursor}
      (hsizes : l.sizes ≠ .single)
      (hfirst : ∀ ends, l.sizes = .stored ends → ends.position = 0)
      (hcount : 1 < count) (hopened : table.openAt v pos univ count params = .ok uppers)
      (huppers : l.uppers = some uppers) : Fresh table params l

/-- The header of one partition is refused or read. -/
theorem readSingle_yields_fresh :
    Yields (Failure.RefusedIf True) (Layout.readSingle table bits pos univ n params)
      (Layout.Fresh table params) := by
  rw [Layout.readSingle]
  refine (readingFrom_yields_any _ _).bind ?_
  rintro ⟨base, pos⟩ -
  have hchecked : ∀ span pos, Yields (Failure.RefusedIf True)
      (if span < n ∨ univ < base + span then
          malformed "partition header" s!"{n} values from {base} span {span} in {univ}"
        else
          return {
            bits, params, n, univ
            partitions := 1
            sizes := .single
            uppers := none
            single := ⟨0, n, base, base + span - 1⟩
            stopWidth := 0
            stopsOffset := 0
            payloadOffset := alignUp pos 8 } : Except Failure (Layout table))
      (Layout.Fresh table params) := by
    intro span pos
    split
    · exact ⟨trivial, _, rfl⟩
    · exact .single rfl rfl
  by_cases hone : n = 1
  · simp only [if_pos hone]
    exact hchecked 1 pos
  · simp only [if_neg hone]
    exact (readingFrom_yields_any _ _).bind fun last _ => hchecked _ last.2

/-- The sizes of several partitions are refused, or are opened at their first position. -/
theorem readSizes_yields_fresh {partitions : Nat} (hseveral : 1 < partitions) :
    Yields (Failure.RefusedIf True) (Layout.readSizes bits pos n partitions params sizing)
      fun read => read.1 ≠ .single ∧ ∀ ends, read.1 = .stored ends → ends.position = 0 := by
  cases sizing with
  | stored =>
      rw [Layout.readSizes]
      rcases (eliasFano_opensOrRefuses params bits pos n (partitions - 1)).failed_or with
        ⟨e, he, hrefused⟩ | ⟨c, hc, -⟩
      · change EliasFano.openAt bits pos n (partitions - 1) params = .error e at he
        rw [he]
        exact hrefused
      · change EliasFano.openAt bits pos n (partitions - 1) params = .ok c at hc
        rw [hc]
        refine ⟨fun hsingle => ?_, fun ends hends => ?_⟩
        · cases hsingle
        · obtain rfl := Sizes.stored.inj hends
          exact (EliasFano.of_openAt hc (by omega)).1
  | uniform =>
      simp only [Layout.readSizes]
      split
      · exact ⟨trivial, _, rfl⟩
      · refine ⟨fun hsingle => ?_, fun ends hends => ?_⟩
        · cases hsingle
        · cases hends

/-- The tables of several partitions are refused or opened. -/
theorem readSeveral_yields_fresh (htable : table.OpensOrRefuses params) {partitions : Nat}
    (hseveral : 1 < partitions) :
    Yields (Failure.RefusedIf True)
      (Layout.readSeveral table bits pos univ n partitions params sizing)
      (Layout.Fresh table params) := by
  rw [Layout.readSeveral]
  refine (readingFrom_yields_any _ _).bind ?_
  rintro ⟨width, pos⟩ -
  simp only
  split
  · exact ⟨trivial, _, rfl⟩
  refine (readSizes_yields_fresh hseveral).bind ?_
  rintro ⟨sizes, pos⟩ ⟨hsizes, hfirst⟩
  simp only
  rcases (htable bits pos univ (partitions + 1)).failed_or with
    ⟨e, he, hrefused⟩ | ⟨uppers, huppers, -⟩
  · rw [he]
    exact hrefused
  rw [huppers]
  refine (checkRange_yields bits _ _ _).bind fun _ _ => ?_
  refine (checkRange_yields bits _ _ _).bind fun _ _ => ?_
  exact .several hsizes hfirst (by omega) huppers rfl

/-- **A header is refused or read**, whatever the bits are. -/
theorem read_yields_fresh (htable : table.OpensOrRefuses params) :
    Yields (Failure.RefusedIf True) (Layout.read table bits offset univ n params sizing)
      (Layout.Fresh table params) := by
  rw [Layout.read]
  by_cases hn : n = 0
  · rw [if_pos hn]
    exact ⟨trivial, _, rfl⟩
  rw [if_neg hn]
  refine (readingFrom_gammaPositive_yields bits offset).bind ?_
  rintro ⟨partitions, pos⟩ hpos
  simp only
  split
  · exact ⟨trivial, _, rfl⟩
  · split
    · exact readSingle_yields_fresh
    · exact readSeveral_yields_fresh htable (by simp only at hpos; omega)

/-! ## The bounds of the first partition -/

/-- Of an opened table, the entry before the second is shown when the second is. -/
def ShowsSecond (table : TableFormat) (params : Params) : Prop :=
  ∀ {v : BitString} {pos univ count : Nat} {c c' : table.Cursor}, 1 < count →
    table.openAt v pos univ count params = .ok c → moveTo c 1 = .ok c' →
    ∃ before, prevValue c' = .ok before

theorem eliasFano_showsSecond (params : Params) : ShowsSecond EliasFano.format params := by
  intro v pos univ count c c' hcount hopen hmove
  obtain ⟨hfirst, hn, hbit⟩ := EliasFano.of_openAt hopen (by omega)
  rcases EliasFano.Cursor.moveTo_one hfirst (by omega) hbit with
    ⟨-, hmissing⟩ | ⟨-, c'', hc'', hprev⟩
  · cases hmissing.symm.trans hmove
  · obtain rfl := Except.ok.inj (hc''.symm.trans hmove)
    exact hprev

theorem fixedWidth_showsSecond (params : Params) : ShowsSecond FixedWidth.format params :=
  fun _ _ _ => ⟨_, rfl⟩

namespace Layout.Fresh

variable {l : Layout table}

/-- The positions of the first partition are known. -/
theorem positions_zero (h : Fresh table params l) :
    ∃ startStop l', l.positions 0 = .ok (startStop, l') ∧ l'.uppers = l.uppers := by
  rw [positions]
  cases hsizes : l.sizes with
  | single => exact ⟨_, _, rfl, rfl⟩
  | uniform log => exact ⟨_, _, rfl, rfl⟩
  | stored ends =>
      have hfirst : ends.position = 0 := by
        cases h with
        | single hsingle => cases hsizes.symm.trans hsingle
        | several _ hfirst => exact hfirst ends hsizes
      have hmove : ends.moveTo 0 = .ok ends := by
        rw [EliasFano.Cursor.moveTo, if_pos hfirst.symm]
        rfl
      have hprev : ends.prevValue = .ok 0 := by rw [EliasFano.Cursor.prevValue, if_pos hfirst]
      refine ⟨(0, ends.value), { l with sizes := .stored ends }, ?_, rfl⟩
      simp only [hmove]
      change (do return ((← ends.prevValue, ends.value), _) : Except Failure _) = _
      rw [hprev]
      rfl

/-- The bounds of the first of several partitions are its positions and the first two upper
bounds. -/
theorem bounds_zero_eq {uppers : table.Cursor} (h : Fresh table params l)
    (hsizes : l.sizes ≠ .single) (huppers : l.uppers = some uppers) :
    ∃ start stop, ∃ l' : Layout table, l.bounds 0 =
      moveTo uppers 1 >>= fun c => prevValue c >>= fun before =>
        pure (⟨start, stop, before, value c⟩, { l' with uppers := some c }) := by
  obtain ⟨⟨start, stop⟩, l', hpositions, hsame⟩ := h.positions_zero
  refine ⟨start, stop, l', ?_⟩
  rw [bounds]
  split
  · rename_i hsingle
    exact absurd hsingle hsizes
  · rw [hpositions]
    change (l'.valueBounds 0 >>= fun answer =>
      pure (⟨start, stop, answer.1.1, answer.1.2⟩, answer.2) :
        Except Failure (Bounds × Layout table)) = _
    rw [valueBounds, hsame, huppers]
    simp only [bind_assoc, pure_bind]
    rfl

/-- **Asking for the first partition's bounds** ends in damage if the move to the second
upper bound does. -/
theorem bounds_zero_corrupt_iff (h : Fresh table params l) (hsecond : ShowsSecond table params) :
    l.bounds 0 = .error (.corrupt cause) ↔
      ∃ uppers, l.uppers = some uppers ∧ moveTo uppers 1 = .error (.corrupt cause) := by
  cases h with
  | single hsizes huppers =>
      rw [bounds, hsizes, huppers]
      constructor
      · rintro ⟨⟩
      · rintro ⟨_, hnone, -⟩
        cases hnone
  | several hsizes hfirst hcount hopened huppers =>
      obtain ⟨start, stop, l', hbounds⟩ :=
        (Fresh.several hsizes hfirst hcount hopened huppers).bounds_zero_eq hsizes huppers
      -- Behind the move the bound before is shown, so the rest does not fail.
      rw [hbounds, @bind_eq_corrupt_iff _ _ _ _ (fun _ => True) ?_ cause, huppers]
      · constructor
        · exact fun hcorrupt => ⟨_, rfl, hcorrupt⟩
        · rintro ⟨_, ⟨⟩, hcorrupt⟩
          exact hcorrupt
      · intro c hc
        obtain ⟨before, hbefore⟩ := hsecond hcount hopened hc
        rw [hbefore]
        exact trivial

end Layout.Fresh

/-! ## Opening -/

/-- A region is damaged when it is opened if its header is accepted and the move to the
second upper bound ends in that damage. -/
theorem openAt_corrupt_iff (hnested : nested.OpensAtFirst)
    (htable : table.OpensOrRefuses params) (hsecond : ShowsSecond table params) :
    openAt nested table sizing bits offset univ n params = .error (.corrupt cause) ↔
      ∃ l uppers, Layout.read table bits offset univ n params sizing = .ok l ∧
        l.uppers = some uppers ∧ moveTo uppers 1 = .error (.corrupt cause) := by
  have hread := @read_yields_fresh table sizing params bits offset univ n htable
  rw [openAt, hread.bind_corrupt_iff]
  refine exists_congr fun l => ?_
  rw [exists_and_left]
  refine and_congr_right fun hl => ?_
  rw [← (hread.ok hl).bounds_zero_corrupt_iff hsecond, Layout.openPartition, bind_assoc]
  -- Behind the bounds there are only refusals.
  refine @bind_eq_corrupt_iff _ _ _ _ (fun _ => True) ?_ cause
  rintro ⟨bounds, l'⟩ -
  dsimp only
  split
  · exact ⟨trivial, _, rfl⟩
  · rw [bind_assoc]
    refine (hnested _ _ _ _ _).bind ?_
    rintro inner ⟨first, hfirst⟩
    simp only [pure_bind, hfirst]
    exact trivial

/-! ## The formats over a block codec -/

/-- The header and the tables of a region are accepted, and in the table of upper bounds
no bit is set behind the first high bit. -/
def LacksSecondBound (bits : BitString) (offset univ n : Nat) (params : Params)
    (sizing : Sizing) : Prop :=
  ∃ (l : Layout EliasFano.format) (uppers : EliasFano.Cursor),
    Layout.read EliasFano.format bits offset univ n params sizing = .ok l ∧
      l.uppers = some uppers ∧ uppers.AtLastBit

/-- The damage that opening can end in. -/
def missingHighBit : Error :=
  .invalidFormat "elias-fano" "missing high bit"

theorem eliasFano_openAt_corrupt_iff (hnested : nested.OpensAtFirst) :
    openAt nested EliasFano.format sizing bits offset univ n params = .error (.corrupt cause) ↔
      cause = missingHighBit ∧ LacksSecondBound bits offset univ n params sizing := by
  rw [openAt_corrupt_iff hnested (eliasFano_opensOrRefuses params) (eliasFano_showsSecond params)]
  -- The table has more than one entry, so that there is a second bound to move to.
  have hmove : ∀ l (uppers : EliasFano.Cursor),
      Layout.read EliasFano.format bits offset univ n params sizing = .ok l →
      l.uppers = some uppers →
      (uppers.AtLastBit ∧ uppers.moveTo 1 = .error (.corrupt missingHighBit)) ∨
        ¬ uppers.AtLastBit ∧ ∃ c', uppers.moveTo 1 = .ok c' := by
    intro l uppers hl huppers
    cases (read_yields_fresh (eliasFano_opensOrRefuses params)).ok hl with
    | single _ hnone => cases hnone.symm.trans huppers
    | several _ _ hcount hopened huppers' =>
        obtain rfl := Option.some.inj (huppers'.symm.trans huppers)
        obtain ⟨hfirst, hn, hbit⟩ := EliasFano.of_openAt hopened (by omega)
        rcases EliasFano.Cursor.moveTo_one hfirst (by omega) hbit with hlast | ⟨hnot, c', hc', -⟩
        · exact .inl hlast
        · exact .inr ⟨hnot, c', hc'⟩
  constructor
  · rintro ⟨l, uppers, hl, huppers, hcorrupt⟩
    change EliasFano.Cursor.moveTo uppers 1 = _ at hcorrupt
    rcases hmove l uppers hl huppers with ⟨hlast, hmissing⟩ | ⟨-, c', hc'⟩
    · rw [hmissing] at hcorrupt
      cases hcorrupt
      exact ⟨rfl, l, uppers, hl, huppers, hlast⟩
    · rw [hc'] at hcorrupt
      cases hcorrupt
  · rintro ⟨rfl, l, uppers, hl, huppers, hlast⟩
    refine ⟨l, uppers, hl, huppers, ?_⟩
    rcases hmove l uppers hl huppers with ⟨-, hmissing⟩ | ⟨hnot, -⟩
    · exact hmissing
    · exact absurd hlast hnot

/-- Over a table of values of fixed width nothing can be missing. -/
theorem fixedWidth_openAt_ne_corrupt (hnested : nested.OpensAtFirst) :
    openAt nested FixedWidth.format sizing bits offset univ n params ≠ .error (.corrupt cause) := by
  rw [Ne, openAt_corrupt_iff hnested (fixedWidth_opensOrRefuses params)
    (fixedWidth_showsSecond params)]
  rintro ⟨l, uppers, -, -, hcorrupt⟩
  cases hcorrupt

/-- **Opening arbitrary bits** ends in damage exactly if the table of upper bounds is
Elias-Fano and lacks the second bound; everything else that is wrong is refused. -/
theorem opening_corrupt_iff (codec : Codec)
    (known : nested = Adaptive.format codec ∨ nested = GapBlocks.format codec) (bits : BitString)
    (offset univ n : Nat) (params : Params) (cause : Error) :
    ((planned codec).openAt bits offset univ n params = .error (.corrupt cause) ↔
      cause = missingHighBit ∧ LacksSecondBound bits offset univ n params .stored) ∧
    ((uniform nested EliasFano.format).openAt bits offset univ n params =
        .error (.corrupt cause) ↔
      params.validate = .ok () ∧ cause = missingHighBit ∧
        LacksSecondBound bits offset univ n params .uniform) ∧
    (uniform nested FixedWidth.format).openAt bits offset univ n params ≠
      .error (.corrupt cause) := by
  have hnested : nested.OpensAtFirst := by
    rcases known with rfl | rfl
    · exact Adaptive.opensAtFirst codec
    · exact GapBlocks.opensAtFirst codec
  have huniform : ∀ table, (uniform nested table).openAt bits offset univ n params =
      .error (.corrupt cause) ↔ params.validate = .ok () ∧
        openAt nested table .uniform bits offset univ n params = .error (.corrupt cause) := by
    intro table
    change (do
      params.validate
      openAt nested table .uniform bits offset univ n params :
        Except Failure (Cursor nested table)) = _ ↔ _
    cases params.validate with
    | error e =>
        constructor
        · rintro ⟨⟩
        · rintro ⟨⟨⟩, -⟩
    | ok _ => exact ⟨fun hcorrupt => ⟨rfl, hcorrupt⟩, fun hcorrupt => hcorrupt.2⟩
  refine ⟨eliasFano_openAt_corrupt_iff (Adaptive.opensAtFirst codec), ?_, ?_⟩
  · rw [huniform, eliasFano_openAt_corrupt_iff hnested]
  · rw [Ne, huniform]
    exact fun hcorrupt => fixedWidth_openAt_ne_corrupt hnested hcorrupt.2

/-- A header of two partitions, followed by the tables.  The one bit of the last byte is
the high bit of the first upper bound. -/
def loneBound : BitString := .ofBytes [0x9a, 0x01]

theorem loneBound_corrupt :
    (planned .vbyte).openAt loneBound 0 4 2 {} = .error (.corrupt missingHighBit) :=
  eq_corrupt_of_damageOf (by decide +kernel)

/-- So the second bound of two partitions is missing there. -/
theorem opening_corrupt_of_two : LacksSecondBound loneBound 0 4 2 {} .stored :=
  ((opening_corrupt_iff .vbyte (.inl rfl) loneBound 0 4 2 {} missingHighBit).1.mp
    loneBound_corrupt).2

/-- Opening what is not a region is not always refused, however small it is. -/
theorem opening_walks_into_damage :
    ¬ ∀ (codec : Codec) (bits : BitString) (offset univ n : Nat) (params : Params),
      offset ≤ bits.size → univ ≤ 2 ^ 32 → n ≤ 2 ^ 32 → params.validate = .ok () →
      ∀ cause, (planned codec).openAt bits offset univ n params ≠ .error (.corrupt cause) :=
  fun hnever => hnever .vbyte loneBound 0 4 2 {} (Nat.zero_le _) (by decide) (by decide)
    (by decide) missingHighBit loneBound_corrupt

end Partitioned
end Postings
