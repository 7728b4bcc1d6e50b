import Postings.Archive.Basic
import Postings.Proofs.Sequence.Aligned
import Postings.Proofs.Sequence.Batches
import Postings.Proofs.Sequence.Scan

/-!
# One list of an archive

Docids are stored as they are and frequencies as their running sums, in either case as a
strictly increasing list.  Its universe is as small as it can be.  So a list is written
exactly if it is of its kind, and where its region is found, up to whole bytes, it is
decoded again.
-/

namespace Postings

open BitString SequenceCursor Partitioned

namespace ListKind

/-- The lists of a kind: strictly increasing docids, or positive frequencies. -/
def Valid : ListKind → List Nat → Prop
  | .docs, values => values.Pairwise (· < ·)
  | .freqs, values => ∀ x ∈ values, 0 < x

/-- How a list is stored. -/
def Stores : ListKind → (values stored : List Nat) → Prop
  | .docs, values, stored => stored = values
  | .freqs, values, stored => PrefixSums.sumsOf 0 0 values = .ok stored

variable {kind : ListKind} {codec : Codec} {params : Params} {config : BuildConfig}
  {values stored : List Nat} {univ : Nat} {before bits : BitString}

/-! ## What is stored -/

theorem Valid.exists_stores (h : kind.Valid values) : ∃ stored, kind.Stores values stored := by
  cases kind with
  | docs => exact ⟨values, rfl⟩
  | freqs => exact PrefixSums.exists_sumsOf h 0 0

namespace Stores

theorem length_eq (h : kind.Stores values stored) : stored.length = values.length := by
  cases kind with
  | docs => rw [show stored = values from h]
  | freqs => exact (PrefixSums.sumsOf_spec h).1

/-- The universe has room for what is stored. -/
theorem ascending (h : kind.Stores values stored) (hvalid : kind.Valid values) (hne : values ≠ [])
    (huniv : kind.univOf values ≤ 2 ^ 32) : Ascending stored (kind.univOf values) := by
  cases kind with
  | docs =>
      obtain rfl : stored = values := h
      refine ⟨hne, hvalid, fun v hv => ?_, huniv⟩
      obtain ⟨i, hi, rfl⟩ := List.mem_iff_getElem.mp hv
      have hlast := getElem_le_getElem (pairwise_le_of_lt hvalid)
        (show i ≤ stored.length - 1 by omega) (by omega)
      rw [univOf, getLastD_eq_getElem (by omega)]
      exact Nat.lt_succ_of_le hlast
  | freqs => exact PrefixSums.sumsOf_ascending h hne (Nat.lt_succ_self _) huniv

/-- If what is stored increases, the list is of its kind. -/
theorem valid (h : kind.Stores values stored) (hstored : Ascending stored univ) :
    kind.Valid values := by
  cases kind with
  | docs =>
      obtain rfl : stored = values := h
      exact hstored.increasing
  | freqs => exact (PrefixSums.sumsOf_spec h).2.1

end Stores

/-! ## Writing -/

/-- A list is written as what is stored for it. -/
theorem write_ok_iff :
    (kind.write codec values univ params config).runFrom before = (.ok (), bits) ↔
      ∃ stored, kind.Stores values stored ∧
        ((planned codec).write stored univ params config).runFrom before = (.ok (), bits) := by
  cases kind with
  | docs =>
      constructor
      · exact fun hwrite => ⟨values, rfl, hwrite⟩
      · rintro ⟨_, rfl, hwrite⟩
        exact hwrite
  | freqs =>
      change (PrefixSums.write (planned codec) values univ params config).runFrom before = _ ↔ _
      rw [PrefixSums.write]
      constructor
      · intro hwrite
        exact Attempt.of_runFrom_lift_bind hwrite
      · rintro ⟨stored, hsums, hwrite⟩
        rw [show PrefixSums.sumsOf 0 0 values = .ok stored from hsums, Attempt.runFrom_bind,
          Attempt.runFrom_lift]
        exact hwrite

/-- **Exactly the lists of the kind are written.** -/
theorem exists_write_iff (hconfig : config.validate = .ok ()) (hne : values ≠ [])
    (huniv : kind.univOf values ≤ 2 ^ 32) :
    (∃ bits, (kind.write codec values (kind.univOf values) params config).runFrom before =
      (.ok (), bits)) ↔ kind.Valid values := by
  constructor
  · rintro ⟨bits, hwrite⟩
    obtain ⟨stored, hstores, hwrite⟩ := write_ok_iff.mp hwrite
    exact hstores.valid (of_write_planned hwrite).1
  · intro hvalid
    obtain ⟨stored, hstores⟩ := hvalid.exists_stores
    obtain ⟨bits, hwrite⟩ := (planned_faithful codec params hconfig).accepts
      (hstores.ascending hvalid hne huniv) before
    exact ⟨bits, write_ok_iff.mpr ⟨stored, hstores, hwrite⟩⟩

theorem length_le_of_write
    (hwrite : (kind.write codec values univ params config).runFrom before = (.ok (), bits)) :
    values.length ≤ univ := by
  obtain ⟨stored, hstores, hwrite⟩ := write_ok_iff.mp hwrite
  rw [← hstores.length_eq]
  exact (of_write_planned hwrite).1.length_le

theorem size_le_of_write
    (hwrite : (kind.write codec values univ params config).runFrom before = (.ok (), bits)) :
    bits.size ≤ before.size + 1007 * univ := by
  obtain ⟨stored, -, hwrite⟩ := write_ok_iff.mp hwrite
  obtain ⟨hstored, hconfig⟩ := of_write_planned hwrite
  exact (planned_growsWithin codec params hconfig).size_le hstored hwrite

theorem write_aligned
    (hwrite : (kind.write codec values univ params config).runFrom before = (.ok (), bits)) :
    bits.size % 8 = 0 := by
  obtain ⟨_, -, hwrite⟩ := write_ok_iff.mp hwrite
  exact planned_write_aligned hwrite

/-- What is written does not depend on batches. -/
theorem write_batched {workers batchWork : Nat} (kind : ListKind) (codec : Codec)
    (values : List Nat) (univ : Nat) (params : Params) (hconfig : config.validate = .ok ())
    (hbatch : 0 < batchWork) :
    kind.write codec values univ params (config.batched workers batchWork) =
      kind.write codec values univ params config := by
  have hplanned := fun values =>
    @planned_write_batched config workers batchWork codec values univ params hconfig hbatch
  cases kind with
  | docs => exact hplanned values
  | freqs =>
      change PrefixSums.write _ values univ params _ = PrefixSums.write _ values univ params _
      rw [PrefixSums.write, PrefixSums.write]
      simp only [hplanned]

end ListKind

/-! ## Decoding -/

/-- **A list is decoded from where its region is found.** -/
theorem Archive.decode_eq {archive : Archive} {record : ListRecord} {codec : Codec}
    {config : BuildConfig} {values : List Nat} {payload : BitString}
    (hwrite : (archive.kind.write codec values record.univ archive.params config).runFrom .empty =
      (.ok (), payload))
    (hn : record.n = values.length) (haligned : record.offset % 8 = 0)
    (hcarries : archive.bits.Carries record.offset payload 0) :
    archive.decode codec record = .ok values := by
  obtain ⟨stored, hstores, hwrite⟩ := ListKind.write_ok_iff.mp hwrite
  obtain ⟨hstored, hconfig⟩ := of_write_planned hwrite
  obtain ⟨c, hopen, hfollows⟩ :=
    (planned_faithful codec archive.params hconfig).opens hstored hwrite
      archive.bits record.offset haligned hcarries
  have hne : values ≠ [] := by
    rw [← List.length_pos_iff, ← hstores.length_eq]
    exact hstored.length_pos
  rw [hstores.length_eq] at hopen
  rw [decode, hn]
  cases hkind : archive.kind with
  | docs =>
      obtain rfl : stored = values := by
        rw [hkind] at hstores
        exact hstores
      obtain ⟨last, hscan⟩ := SequenceCursor.scan_eq hfollows hne
      simp only [hopen]
      change (do return (← SequenceCursor.scan c (stored.length - 1)).1 : Except Failure _) = _
      rw [hscan]
      rfl
  | freqs =>
      have hsums : PrefixSums.sumsOf 0 0 values = .ok stored := by
        rw [hkind] at hstores
        exact hstores
      obtain ⟨last, hscan⟩ := @PrefixSums.Cursor.scan_eq _ ⟨c⟩ _ _ _ _ hsums hfollows hne
      simp only [PrefixSums.openAt, hopen]
      change (do return (← PrefixSums.Cursor.scan ⟨c⟩ (values.length - 1)).1 : Except Failure _) = _
      rw [hscan]
      rfl

end Postings
