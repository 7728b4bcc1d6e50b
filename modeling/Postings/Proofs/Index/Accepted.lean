import Postings.Proofs.Index.Create
import Postings.Proofs.Index.Stored

/-!
# Which collections there is an index of

Planning, layout and codecs refuse nothing of a collection that passed its checks, up to
the very width of a posting.  So an index is created where the parameters, the settings and
every list pass, and otherwise the first check that fails is what refuses the collection.

The size that is told with an index counts what is in it: its bits are those of the
regions, term by term.
-/

namespace Postings
namespace Index

variable {scheme : Scheme} {docsRate freqsRate numDocs : Nat} {lists : List PostingList}
  {params : Params} {config : BuildConfig} {index : Index scheme} {stats : IndexStats}

/-- The regions of an index that was created lie in order. -/
theorem ordered_of_create (h : create scheme numDocs lists params config = .ok (index, stats)) :
    index.docs.Ordered ∧ index.freqs.Ordered := by
  obtain ⟨-, -, builder, hrun, hcreated⟩ := create_eq_ok.mp h
  obtain ⟨rfl, -⟩ := Prod.mk.inj hcreated
  obtain ⟨-, rfl⟩ := IndexBuilder.of_addLists hrun
  exact IndexBuilder.afterCalls_ordered Regions.empty_ordered Regions.empty_ordered _

/-- **An index is created of exactly the collections that pass their checks**, and its size
is told. -/
theorem create_accepts_exactly (hdocs : Shipped scheme.docs docsRate)
    (hfreqs : Shipped scheme.freqs freqsRate) (numDocs : Nat) (lists : List PostingList)
    (params : Params) (config : BuildConfig) :
    -- Which collections are accepted.
    ((∃ index stats, create scheme numDocs lists params config = .ok (index, stats)) ↔
      params.validate = .ok () ∧ config.validate = .ok () ∧
        ∀ list ∈ lists, list.docs ≠ [] ∧ list.docs.length = list.freqs.length ∧
          list.docs.Pairwise (· < ·) ∧ (∀ doc ∈ list.docs, doc < numDocs) ∧
          (∀ freq ∈ list.freqs, 0 < freq) ∧ numDocs ≤ 2 ^ 32 ∧ list.freqs.sum ≤ 2 ^ 32 - 1) ∧
    -- What refuses the others is a check, and no step behind the checks.  Frequencies are 32-bit
    -- numbers.
    ((∀ list ∈ lists, ∀ freq ∈ list.freqs, freq < 2 ^ 32) →
      ∀ e, create scheme numDocs lists params config = .error e ↔
        checkCollection scheme numDocs lists params config = .error e) ∧
    -- What is told about an index.
    ∀ index stats, create scheme numDocs lists params config = .ok (index, stats) →
      stats = { terms := lists.length
                postings := (lists.map (·.docs.length)).sum
                docsBits := index.docsBits
                freqsBits := index.freqsBits } ∧
      ∀ r ∈ [index.docs, index.freqs], r.size = lists.length ∧
        r.bits.size = ((List.range r.size).map fun term => r.stop term - r.offset term).sum := by
  refine ⟨?_, fun hsmall e => create_eq_error_iff hdocs hfreqs hsmall, fun index stats h => ?_⟩
  · rw [← Prod.exists', exists_create_iff hdocs hfreqs]
    have hsum : ∀ list : PostingList, list.occurrences < 2 ^ 32 ↔
        list.freqs.sum ≤ 2 ^ 32 - 1 := fun list => Nat.lt_iff_le_pred (by decide)
    simp only [PostingList.validate_eq_ok, hsum, and_assoc]
  · obtain ⟨hdocsOrdered, hfreqsOrdered⟩ := ordered_of_create h
    obtain ⟨-, -, -, builder, parts, rfl, rfl, -, hholds⟩ := of_create h
    have hparts : parts.length = lists.length := by
      rw [← hholds.encodes.length_eq, List.length_map]
    have hsize := hholds.docs.size_eq
    rw [List.length_map, hparts] at hsize
    have hfreqsSize := hholds.freqs.size_eq
    rw [List.length_map, hparts] at hfreqsSize
    have hpostings := hholds.postings_eq
    rw [List.map_map] at hpostings
    refine ⟨?_, fun r hr => ?_⟩
    · rw [IndexBuilder.stats, IndexBuilder.size, hsize, hpostings]
      rfl
    · rcases List.mem_pair.mp hr with rfl | rfl
      · rw [hdocsOrdered.sum_sizes]
        exact ⟨hsize, hholds.docs.stop_eq.symm⟩
      · rw [hfreqsOrdered.sum_sizes]
        exact ⟨hfreqsSize, hholds.freqs.stop_eq.symm⟩

/-- Two lists at the width of a posting, and one with an occurrence more than that. -/
theorem create_accepts_exactly_of_two :
    let scheme : Scheme := ⟨Partitioned.planned .interpolative, GapBlocks.format .streamVByte⟩
    let lists : List PostingList := [⟨[7], [1]⟩, ⟨[0, 3, 2 ^ 32 - 1], [1, 5, 2 ^ 32 - 7]⟩]
    let tooMany : List PostingList := [⟨[7], [1]⟩, ⟨[0, 3, 2 ^ 32 - 1], [1, 5, 2 ^ 32 - 6]⟩]
    Shipped scheme.docs 1007 ∧ Shipped scheme.freqs 79 ∧
    (∃ index stats, create scheme (2 ^ 32) lists {} {} = .ok (index, stats) ∧
      stats.terms = 2 ∧ stats.postings = 4 ∧ stats.docsBits = index.docsBits) ∧
    create scheme (2 ^ 32) tooMany {} {} = .error (.codecOverflow "u32 posting" (2 ^ 32 + 1)) := by
  intro scheme lists tooMany
  have hdocs : Shipped scheme.docs 1007 := .planned .interpolative
  have hfreqs : Shipped scheme.freqs 79 := .gapBlocks .streamVByte
  obtain ⟨haccepts, -, hsizes⟩ := create_accepts_exactly hdocs hfreqs (2 ^ 32) lists {} {}
  obtain ⟨-, hrefuses, -⟩ := create_accepts_exactly hdocs hfreqs (2 ^ 32) tooMany {} {}
  obtain ⟨index, stats, hcreate⟩ := haccepts.mpr ⟨by decide +kernel, by decide +kernel, by decide⟩
  obtain ⟨hstats, -⟩ := hsizes index stats hcreate
  refine ⟨hdocs, hfreqs, ⟨index, stats, hcreate, ?_⟩,
    (hrefuses (by decide) _).mpr (by decide +kernel)⟩
  rw [hstats]
  exact ⟨rfl, rfl, rfl⟩

end Index
end Postings
