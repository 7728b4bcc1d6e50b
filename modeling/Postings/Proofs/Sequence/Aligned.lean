import Postings.Proofs.Sequence.Accepted

/-!
# Regions that end on a byte boundary

A partition is written from a byte boundary, and in all of its encodings it takes whole
bytes.  So a region of planned partitions, which ends with a payload, ends on a byte
boundary wherever it begins, and what is appended to it is aligned as it was on its own.
-/

namespace Postings

open BitString

variable {codec : Codec} {params : Params} {config : BuildConfig} {values ends : List Nat}
  {univ : Nat} {before bits : BitString}

/-- Any of the three encodings takes whole bytes. -/
theorem Adaptive.Written.aligned (hw : Written codec before values univ bits) :
    bits.size % 8 = 0 := by
  have hstart : (before.padTo 8).size % 8 = 0 := by
    rw [size_padTo_eight]
    exact alignUp_mod_eight _
  cases hw with
  | allOnes => exact hstart
  | bitmap =>
      rw [appendBitmap, size_padTo_eight]
      exact alignUp_mod_eight _
  | blocks =>
      rw [size_appendBytes, size_appendBits]
      omega

namespace Partitioned

/-- Partitions in any of the three encodings end with a payload. -/
theorem Written.aligned {table : TableFormat} {sizing : Sizing} (hvalues : Ascending values univ)
    (h : Ends values.length ends)
    (w : Written (Adaptive.format codec) table sizing values univ ends params config before bits) :
    bits.size % 8 = 0 := by
  cases w with
  | single _ hpayload =>
      have hsegment := ascending_segment h hvalues h.length_pos
      obtain ⟨bits', hwrite, hwritten⟩ := Adaptive.exists_write codec hsegment params config
        ((singleHeader values univ (before.appendGammaPositive ends.length)).padTo 8)
      obtain rfl := congrArg Prod.snd (hwrite.symm.trans hpayload)
      exact hwritten.aligned
  | several _ parts =>
      have hpayloads := parts.payloads_aligned
      have hpadded := alignUp_mod_eight (parts.tabled.appendFields parts.width parts.stops).size
      rw [parts.bits_eq_append, size_append, SeveralWritten.stopped, size_padTo_eight]
      omega

/-- **Planned partitions end on a byte boundary.** -/
theorem planned_write_aligned
    (hwrite : ((planned codec).write values univ params config).runFrom before = (.ok (), bits)) :
    bits.size % 8 = 0 := by
  obtain ⟨hvalues, hconfig⟩ := of_write_planned hwrite
  obtain ⟨ends, hends, hrun⟩ := exists_plan codec hconfig hvalues params
  rw [hrun] at hwrite
  exact (written_of_write (Adaptive.faithful codec params config) (EliasFano.faithful params)
    hvalues hends hwrite).aligned hvalues hends

end Partitioned
end Postings
