import Postings.Proofs.Sequence.Accepted
import Postings.Proofs.Sequence.Adaptive.Cut
import Postings.Proofs.Sequence.GapBlocks.Cut
import Postings.Proofs.Sequence.Partitioned.Cut

/-!
# Truncation is never misread

A file may end early, at any byte.  What is left of a region is read with the position,
the universe and the number of values of the whole one, and nothing says that it is not
whole.  The partitioned formats over a block codec notice: a region that was cut off is
refused, or each walk over it gives the answers of the whole region, up to a move that
ends in damage.

Two things come together.  The formats of the partitions withstand cuts, and the tables
of upper bounds are refused when they do not fit.  Then the header of a partitioned
region is refused or right, and a partition opens to a cursor that follows its values,
unless damaged.
-/

namespace Postings
namespace Partitioned

open BitString SequenceCursor

variable {nested : Format} {table : TableFormat} {params : Params} {config : BuildConfig}
  {values : List Nat} {univ : Nat} {before bits cut : BitString}

/-- Either table of upper bounds opens or is refused. -/
theorem table_opensOrRefuses (known : table = EliasFano.format ∨ table = FixedWidth.format)
    (params : Params) : table.OpensOrRefuses params := by
  rcases known with rfl | rfl
  · exact eliasFano_opensOrRefuses params
  · exact fixedWidth_opensOrRefuses params

/-! ## What is left of a region -/

/-- What is left of uniform partitions, in a format that withstands cuts. -/
theorem uniform_opens_cut (hnested : nested.Faithful params config)
    (hwithstands : nested.WithstandsCuts params)
    (hrate : nested.GrowsWithin params config (2 ^ 31))
    (known : table = EliasFano.format ∨ table = FixedWidth.format)
    (hwrite : ((uniform nested table).write values univ params config).runFrom before =
      (.ok (), bits)) (hextends : bits.Extends cut) (haligned : cut.size % 8 = 0) :
    Yields (Failure.RefusedIf True)
      ((uniform nested table).openAt cut before.size univ values.length params) fun c =>
        FollowsUnless True c ⟨values, univ, 0⟩ := by
  obtain ⟨hparams, hvalues, hwrite⟩ := of_write_uniform hwrite
  obtain ⟨htable, -⟩ := table_faithful known params
  have hends : Ends values.length (uniformEnds params.partitionLog values.length) :=
    uniformEnds_ends hvalues.length_pos
  have hwritten := written_of_write hnested htable hvalues hends hwrite
  have hgrown := hwritten.extends_before hnested htable hvalues hends
  change Yields _ (do
    params.validate
    openAt nested table .uniform cut before.size univ values.length params :
      Except Failure (Cursor nested table)) _
  rw [hparams]
  exact hwritten.opens_cut hnested hwithstands htable (table_opensOrRefuses known params) hvalues
    hends (fun _ => rfl) (.inr hrate) rfl (.of_extends (.refl bits) hgrown.size_le)
    hextends haligned

/-- What is left of planned partitions. -/
theorem planned_opens_cut {codec : Codec}
    (hwrite : ((planned codec).write values univ params config).runFrom before = (.ok (), bits))
    (hextends : bits.Extends cut) (haligned : cut.size % 8 = 0) :
    Yields (Failure.RefusedIf True)
      ((planned codec).openAt cut before.size univ values.length params) fun c =>
        FollowsUnless True c ⟨values, univ, 0⟩ := by
  obtain ⟨hvalues, hconfig⟩ := of_write_planned hwrite
  obtain ⟨ends, hends, hrun⟩ := exists_plan codec hconfig hvalues params
  rw [hrun] at hwrite
  have hnested := Adaptive.faithful codec params config
  have htable := EliasFano.faithful params
  have hwritten := written_of_write hnested htable hvalues hends hwrite
  have hgrown := hwritten.extends_before hnested htable hvalues hends
  exact hwritten.opens_cut hnested (Adaptive.withstandsCuts codec params) htable
    (eliasFano_opensOrRefuses params) hvalues hends (fun hsizing => by cases hsizing)
    (.inr ((Adaptive.growsWithin codec params config).mono (by decide))) rfl
    (.of_extends (.refl bits) hgrown.size_le) hextends haligned

/-! ## The formats over a block codec -/

/-- The partitioned formats over a block codec: planned partitions, and uniform ones in
the cheapest of three encodings or in blocks of gaps, with either table of upper bounds. -/
inductive OverCodec : Format → Prop where
  | planned (codec : Codec) : OverCodec (planned codec)
  | adaptive (codec : Codec) {table : TableFormat}
      (known : table = EliasFano.format ∨ table = FixedWidth.format) :
      OverCodec (uniform (Adaptive.format codec) table)
  | gapBlocks (codec : Codec) {table : TableFormat}
      (known : table = EliasFano.format ∨ table = FixedWidth.format) :
      OverCodec (uniform (GapBlocks.format codec) table)

namespace OverCodec

variable {f : Format}

/-- They are formats of the library. -/
theorem exists_shipped (h : OverCodec f) : ∃ rate, Shipped f rate := by
  cases h with
  | planned codec => exact ⟨_, .planned codec⟩
  | adaptive codec known => exact ⟨_, .uniform (.adaptive codec) (by decide) known⟩
  | gapBlocks codec known => exact ⟨_, .uniform (.gapBlocks codec) (by decide) known⟩

theorem opens_cut (h : OverCodec f)
    (hwrite : (f.write values univ params config).runFrom before = (.ok (), bits))
    (hextends : bits.Extends cut) (haligned : cut.size % 8 = 0) :
    Yields (Failure.RefusedIf True) (f.openAt cut before.size univ values.length params) fun c =>
      FollowsUnless True c ⟨values, univ, 0⟩ := by
  cases h with
  | planned codec => exact planned_opens_cut hwrite hextends haligned
  | adaptive codec known =>
      exact uniform_opens_cut (Adaptive.faithful codec params config)
        (Adaptive.withstandsCuts codec params)
        ((Adaptive.growsWithin codec params config).mono (by decide)) known hwrite hextends haligned
  | gapBlocks codec known =>
      exact uniform_opens_cut (GapBlocks.faithful codec params config)
        (GapBlocks.withstandsCuts codec params)
        ((GapBlocks.growsWithin codec params config).mono (by decide)) known hwrite
        hextends haligned

theorem ascending_of_write (h : OverCodec f)
    (hwrite : (f.write values univ params config).runFrom before = (.ok (), bits)) :
    Ascending values univ := by
  cases h with
  | planned => exact (of_write_planned hwrite).1
  | adaptive => exact (of_write_uniform hwrite).2.1
  | gapBlocks => exact (of_write_uniform hwrite).2.1

theorem opens_whole (h : OverCodec f)
    (hwrite : (f.write values univ params config).runFrom before = (.ok (), bits)) :
    f.Opens bits before.size univ values params := by
  obtain ⟨rate, hshipped⟩ := h.exists_shipped
  have hvalues := h.ascending_of_write hwrite
  have hlength := hvalues.length_le.trans hvalues.univ_le
  obtain ⟨hgrown, hopens⟩ :=
    (hshipped.sound params config).keeps hvalues.univ_le hlength hwrite
  exact hopens bits _ rfl (.of_extends (.refl bits) hgrown.size_le)

/-- **Truncation is never misread.**  What was written opens and reads as the list.  Cut
off at any byte it is refused, or it opens to a cursor that after every run of moves
shows what the one over the whole region shows then, or ends in damage. -/
theorem truncation_never_misread (h : OverCodec f)
    (hwrite : (f.write values univ params config).runFrom before = (.ok (), bits)) :
    ∃ whole, f.openAt bits before.size univ values.length params = .ok whole ∧
      Follows whole ⟨values, univ, 0⟩ ∧
      ∀ len, len ≤ bits.size → len % 8 = 0 →
        (∃ cause, f.openAt (bits.truncate len) before.size univ values.length params =
          .error (.refused cause)) ∨
        ∃ c, f.openAt (bits.truncate len) before.size univ values.length params = .ok c ∧
          ∀ moves, Move.AllAllowed ⟨values, univ, 0⟩ moves →
            (∃ cause, run c moves = .error (.corrupt cause)) ∨
            ∃ c' whole', run c moves = .ok c' ∧ run whole moves = .ok whole' ∧
              size c' = size whole' ∧ position c' = position whole' ∧ value c' = value whole' ∧
              (prevValue c' = prevValue whole' ∨
                ∃ cause, prevValue c' = .error (.corrupt cause)) := by
  obtain ⟨whole, hopen, hwhole⟩ := h.opens_whole hwrite
  refine ⟨whole, hopen, hwhole, fun len hlen haligned => ?_⟩
  have hcut := h.opens_cut hwrite (extends_truncate bits len) (by rwa [size_truncate hlen])
  rcases hcut.failed_or with ⟨_, hrefused, -, cause, rfl⟩ | ⟨c, hc, hfollows⟩
  · exact .inl ⟨cause, hrefused⟩
  · refine .inr ⟨c, hc, fun moves hmoves => ?_⟩
    obtain ⟨whole', hrun', hagree⟩ := hwhole moves hmoves
    rcases (hfollows moves hmoves).failed_or with ⟨_, hdamage, -, cause, rfl⟩ | ⟨c', hrun, hsame⟩
    · exact .inl ⟨cause, hdamage⟩
    · refine .inr ⟨c', whole', hrun, hrun', hsame.size_eq.trans hagree.size_eq.symm,
        hsame.position_eq.trans hagree.position_eq.symm,
        hsame.value_eq.trans hagree.value_eq.symm, ?_⟩
      rcases hsame.prevValue.failed_or with ⟨_, hdamage, -, cause, rfl⟩ | ⟨_, hprev, rfl⟩
      · exact .inr ⟨cause, hdamage⟩
      · exact .inl (hprev.trans hagree.prevValue_eq.symm)

/-- Without its last byte a region of two partitions opens, and reads up to the second
one, the end of which is missing. -/
theorem truncation_never_misread_of_three : ∃ bits c whole,
    ((uniform (GapBlocks.format .vbyte) FixedWidth.format).write [1, 4, 6] 9
      { partitionLog := 1 } {}).runFrom .empty = (.ok (), bits) ∧
    (uniform (GapBlocks.format .vbyte) FixedWidth.format).openAt bits 0 9 3
      { partitionLog := 1 } = .ok whole ∧
    (uniform (GapBlocks.format .vbyte) FixedWidth.format).openAt (bits.truncate 128) 0 9 3
      { partitionLog := 1 } = .ok c ∧
    (∃ c' whole', run c [.next] = .ok c' ∧ run whole [.next] = .ok whole' ∧
      value c' = value whole') ∧
    ∃ cause, run c [.next, .next] = .error (.corrupt cause) := by
  obtain ⟨bits, hwrite, hsize, hone, htwo⟩ : ∃ bits,
      ((uniform (GapBlocks.format .vbyte) FixedWidth.format).write [1, 4, 6] 9
        { partitionLog := 1 } {}).runFrom .empty = (.ok (), bits) ∧ 128 ≤ bits.size ∧
      ((uniform (GapBlocks.format .vbyte) FixedWidth.format).openAt (bits.truncate 128) 0 9 3
        { partitionLog := 1 } >>= fun c => run c [.next]).isOk = true ∧
      ((uniform (GapBlocks.format .vbyte) FixedWidth.format).openAt (bits.truncate 128) 0 9 3
        { partitionLog := 1 } >>= fun c => run c [.next, .next]).isOk = false := by
    refine ⟨_, Prod.ext ?_ rfl, ?_, ?_, ?_⟩ <;> decide +kernel
  obtain ⟨whole, hwhole, -, hcut⟩ := (gapBlocks .vbyte (.inr rfl)).truncation_never_misread hwrite
  rw [show BitString.empty.size = 0 from rfl, show [1, 4, 6].length = 3 from rfl] at hwhole hcut
  rcases hcut 128 hsize (by decide) with ⟨cause, hrefused⟩ | ⟨c, hc, hruns⟩
  · rw [hrefused] at hone
    cases hone
  rw [hc] at hone htwo
  change (run c [.next]).isOk = true at hone
  change (run c [.next, .next]).isOk = false at htwo
  have hallowed : Move.AllAllowed ⟨[1, 4, 6], 9, 0⟩ [.next, .next] :=
    ⟨show 0 < 3 by decide, show 1 < 3 by decide, trivial⟩
  refine ⟨bits, c, whole, hwrite, hwhole, hc, ?_, ?_⟩
  · rcases hruns [.next] ⟨hallowed.1, trivial⟩ with
      ⟨cause, hdamage⟩ | ⟨c', whole', hrun, hrun', -, -, hvalue, -⟩
    · rw [hdamage] at hone
      cases hone
    · exact ⟨c', whole', hrun, hrun', hvalue⟩
  · rcases hruns [.next, .next] hallowed with
      hdamage | ⟨c', whole', hrun, -⟩
    · exact hdamage
    · rw [hrun] at htwo
      cases htwo

end OverCodec
end Partitioned
end Postings
