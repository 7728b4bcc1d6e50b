import Postings.Index.Stored
import Postings.Proofs.Bits.Stored
import Postings.Proofs.Index.Builder

/-!
# An index, stored and loaded

Whatever calls were accepted, the index that they built is loaded from its stored form,
with any bytes behind it, and from no shorter file.  Conversely a file that is accepted
begins with the stored form of what was read from it, so a file tells one index and an
index has one stored form.

Both directions follow the layout of the file: the number of documents, the parameters,
and the two collections, whose numbers of regions are compared at the end.
-/

namespace Postings

/-! ## Parameters -/

namespace Params

theorem validate_eq_ok {params : Params} :
    params.validate = .ok () ↔
      (1 ≤ params.partitionLog ∧ params.partitionLog ≤ 31) ∧
      (1 ≤ params.bucketLog ∧ params.bucketLog ≤ 31) ∧
      (1 ≤ params.elementLog ∧ params.elementLog ≤ 31) := by
  rw [validate, check_bind_eq_ok, check_bind_eq_ok]
  simp only [checkArgument_eq_ok, Bool.and_eq_true, decide_eq_true_eq]

theorem loads_load {params : Params} (h : params.validate = .ok ()) :
    Loads load params.store params := by
  obtain ⟨⟨-, hpartition⟩, ⟨-, hbucket⟩, -, helement⟩ := validate_eq_ok.mp h
  rw [store, List.append_assoc]
  refine (loads_loadU8 _ (by omega)).bind ((loads_loadU8 _ (by omega)).bind ?_)
  rw [← List.append_nil (leBytes 1 params.elementLog)]
  refine (loads_loadU8 _ (by omega)).bind ?_
  simp only [h]
  exact .pure params

theorem of_load {params : Params} {bytes rest : List UInt8}
    (h : load.runFrom bytes = (.ok params, rest)) :
    params.validate = .ok () ∧ bytes = params.store ++ rest := by
  obtain ⟨partitionLog, afterPartition, hpartition, hloadBucket⟩ := Attempt.of_runFrom_bind h
  obtain ⟨bucketLog, afterBucket, hbucket, hloadElement⟩ := Attempt.of_runFrom_bind hloadBucket
  obtain ⟨elementLog, afterElement, helement, hchecked⟩ := Attempt.of_runFrom_bind hloadElement
  obtain ⟨-, rfl⟩ := of_loadU8 hpartition
  obtain ⟨-, rfl⟩ := of_loadU8 hbucket
  obtain ⟨-, rfl⟩ := of_loadU8 helement
  simp only at hchecked
  split at hchecked
  · rename_i hvalid
    cases hchecked
    exact ⟨hvalid, by simp only [store, List.append_assoc]⟩
  · cases hchecked

end Params

/-! ## Builders -/

namespace IndexBuilder

variable {scheme : Scheme}

/-- The regions of a builder stay in order, whatever is called. -/
theorem afterCalls_ordered {builder : IndexBuilder scheme} (hdocs : builder.docs.Ordered)
    (hfreqs : builder.freqs.Ordered) (calls : List Addition) :
    (builder.afterCalls calls).docs.Ordered ∧ (builder.afterCalls calls).freqs.Ordered := by
  induction calls generalizing builder with
  | nil => exact ⟨hdocs, hfreqs⟩
  | cons a calls ih =>
      have houtcome := call_outcome builder a
      rw [afterCalls]
      generalize builder.call a = result at houtcome
      cases houtcome with
      | refused => exact ih hdocs hfreqs
      | torn _ docs => exact ih (hdocs.push docs) hfreqs
      | encoded docs freqs => exact ih (hdocs.push docs) (hfreqs.push freqs)

/-- Calls that are all accepted leave as many frequency regions as docs regions. -/
theorem size_eq_of_accepted {builder : IndexBuilder scheme} {calls : List Addition}
    (hsize : builder.docs.size = builder.freqs.size) (haccepted : builder.accepted calls = calls) :
    (builder.afterCalls calls).docs.size = (builder.afterCalls calls).freqs.size := by
  obtain ⟨hfreqs, -, hdocs⟩ := size_afterCalls builder calls
  rw [hfreqs, ← hsize]
  refine hdocs.mpr fun a ha => ?_
  rw [← haccepted] at ha
  exact not_tears_of_mem_accepted ha

end IndexBuilder

/-! ## Indexes -/

namespace Index

variable {scheme : Scheme}

/-- What the stored form can tell, and only that is accepted. -/
structure Storable (index : Index scheme) : Prop where
  params_valid : index.params.validate = .ok ()
  size_eq : index.docs.size = index.freqs.size
  docs_ordered : index.docs.Ordered
  freqs_ordered : index.freqs.Ordered

theorem Storable.loads_load {index : Index scheme} (h : index.Storable)
    (hnumDocs : index.numDocs < 2 ^ 64) (hsize : index.size < 2 ^ 64)
    (hdocs : index.docsBits < 2 ^ 64) (hfreqs : index.freqsBits < 2 ^ 64) :
    Loads (load scheme) index.store index := by
  have hfreqsSize : index.freqs.size < 2 ^ 64 := h.size_eq ▸ hsize
  rw [store, List.append_assoc, List.append_assoc]
  refine (loads_loadU64 _ hnumDocs).bind ((Params.loads_load h.params_valid).bind
    ((Regions.loads_load hsize hdocs h.docs_ordered).bind ?_))
  rw [← List.append_nil index.freqs.store]
  refine (Regions.loads_load hfreqsSize hfreqs h.freqs_ordered).bind ?_
  rw [if_neg (not_not.mpr h.size_eq)]
  exact .pure index

theorem of_load {index : Index scheme} {bytes rest : List UInt8}
    (h : (load scheme).runFrom bytes = (.ok index, rest)) :
    index.Storable ∧ bytes = index.store ++ rest := by
  obtain ⟨numDocs, afterNumDocs, hnumDocs, hloadParams⟩ := Attempt.of_runFrom_bind h
  obtain ⟨params, afterParams, hparams, hloadDocs⟩ := Attempt.of_runFrom_bind hloadParams
  obtain ⟨docs, afterDocs, hdocs, hloadFreqs⟩ := Attempt.of_runFrom_bind hloadDocs
  obtain ⟨freqs, afterFreqs, hfreqs, hchecked⟩ := Attempt.of_runFrom_bind hloadFreqs
  obtain ⟨-, rfl⟩ := of_loadU64 hnumDocs
  obtain ⟨hvalid, rfl⟩ := Params.of_load hparams
  obtain ⟨hdocsOrdered, rfl⟩ := Regions.of_load hdocs
  obtain ⟨hfreqsOrdered, rfl⟩ := Regions.of_load hfreqs
  split at hchecked
  · cases hchecked
  · rename_i hsize
    cases hchecked
    exact ⟨⟨hvalid, not_not.mp hsize, hdocsOrdered, hfreqsOrdered⟩,
      by simp only [store, List.append_assoc]⟩

/-- **Files and indexes tell each other.**  An index that was built by accepted calls is
loaded from its stored form and from no part of it, and every file that is loaded begins
with the stored form of an index whose regions are in order. -/
theorem stored_exactly (scheme : Scheme) :
    (∀ (params : Params) (numDocs : Nat) (calls : List Addition),
      params.validate = .ok () → numDocs < 2 ^ 64 →
      let start : IndexBuilder scheme := { params, numDocs }
      start.accepted calls = calls →
      let index := (start.afterCalls calls).build
      -- Sizes are 64-bit numbers.
      index.size < 2 ^ 64 → index.docsBits < 2 ^ 64 → index.freqsBits < 2 ^ 64 →
      (∀ trailing, ofStored scheme (index.store ++ trailing) = .ok index) ∧
      ∀ part, part <+: index.store → part ≠ index.store →
        ∃ context source, ofStored scheme part = .error (.io context source)) ∧
    ∀ (bytes : List UInt8) (index : Index scheme), ofStored scheme bytes = .ok index →
      index.store <+: bytes ∧ index.docs.size = index.freqs.size ∧
      ∀ r ∈ [index.docs, index.freqs],
        (∀ i, i < r.size → r.offset i ≤ r.stop i ∧ r.stop i ≤ r.bits.size) ∧
        ∀ i, r.bits.size ≤ i → r.bits.bit i = false := by
  constructor
  · intro params numDocs calls hparams hnumDocs start haccepted index hsize hdocs hfreqs
    have halike := IndexBuilder.afterCalls_alike start calls
    obtain ⟨hdocsOrdered, hfreqsOrdered⟩ := @IndexBuilder.afterCalls_ordered scheme start
      Regions.empty_ordered Regions.empty_ordered calls
    have hstorable : index.Storable :=
      { params_valid := by
          rw [show index.params = params from halike.params_eq]
          exact hparams
        size_eq := IndexBuilder.size_eq_of_accepted rfl haccepted
        docs_ordered := hdocsOrdered
        freqs_ordered := hfreqsOrdered }
    have hnum : index.numDocs < 2 ^ 64 := by
      rw [show index.numDocs = numDocs from halike.numDocs_eq]
      exact hnumDocs
    have hloads := hstorable.loads_load hnum hsize hdocs hfreqs
    refine ⟨fun trailing => ?_, fun part hpart hne => ?_⟩
    · rw [ofStored, hloads.runFrom_eq]
    · obtain ⟨context, source, rest, hrun⟩ := hloads.short part hpart hne
      rw [ofStored, hrun]
      exact ⟨context, source, rfl⟩
  · intro bytes index hread
    rw [ofStored] at hread
    cases hrun : (load scheme).runFrom bytes with
    | mk answer rest =>
        rw [hrun] at hread
        obtain rfl : answer = .ok index := hread
        obtain ⟨hstorable, rfl⟩ := of_load hrun
        refine ⟨List.prefix_append _ _, hstorable.size_eq, fun r hr => ?_⟩
        refine ⟨?_, fun i hi => r.bits.bit_eq_false_of_size_le hi⟩
        rcases List.mem_pair.mp hr with rfl | rfl
        · exact hstorable.docs_ordered
        · exact hstorable.freqs_ordered

/-- Two lists, stored with three bytes behind them and cut in the words of the docs
regions. -/
theorem stored_exactly_of_two :
    let scheme : Scheme := .uniform EliasFano.format.toFormat
    let start : IndexBuilder scheme := { params := {}, numDocs := 10 }
    let calls : List Addition := [⟨⟨5, 2⟩, [3, 4], [2, 3], {}⟩, ⟨⟨1, 1⟩, [9], [1], {}⟩]
    let index := (start.afterCalls calls).build
    start.accepted calls = calls ∧ index.size = 2 ∧
    ofStored scheme (index.store ++ [1, 2, 3]) = .ok index ∧
    ∃ context source, ofStored scheme (index.store.take 50) = .error (.io context source) := by
  intro scheme start calls index
  have haccepted : start.accepted calls = calls := by
    rw [IndexBuilder.accepted_cons_of_ok (by decide +kernel),
      IndexBuilder.accepted_cons_of_ok (by decide +kernel)]
    rfl
  obtain ⟨hwhole, hpart⟩ := (stored_exactly scheme).1 {} 10 calls (by decide +kernel)
    (by decide) haccepted (by decide +kernel) (by decide +kernel) (by decide +kernel)
  refine ⟨haccepted, by decide +kernel, hwhole [1, 2, 3], ?_⟩
  refine hpart (index.store.take 50) (List.take_prefix _ _) fun h => ?_
  have hlength : index.store.length ≤ 50 := List.take_eq_self_iff _ |>.mp h
  revert hlength
  decide +kernel

end Index
end Postings
