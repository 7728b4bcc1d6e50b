import Postings.Index.Builder
import Postings.Proofs.Bits.Regions
import Postings.Proofs.Index.Cursor
import Postings.Proofs.Index.Fields
import Postings.Proofs.Sequence.Accepted

/-!
# Terms that were encoded are opened

Adding a list encodes a docs region and a frequency region.  Once both are in the
collections of an index, under the same number, the term of that number is opened: the
docs region tells the header, the header tells how many docids and sums there are and
below which universe, and both sequences are found behind byte boundaries, as they were
written.
-/

namespace Postings

open BitString SequenceCursor

/-- What is added for a term. -/
structure Addition where
  header : ListHeader
  docs : List Nat
  freqs : List Nat
  config : BuildConfig

/-! ## Regions of their own -/

namespace IndexBuilder

variable {scheme : Scheme} {builder : IndexBuilder scheme} {a : Addition}

/-- A region is what was written, padded to whole bytes. -/
theorem of_region {start bits : BitString} {content : Writing Unit}
    (h : region start content = .ok bits) :
    ∃ written, content.runFrom start = (.ok (), written) ∧ bits = written.padTo 8 := by
  rw [region] at h
  split at h
  · rename_i written hrun
    exact ⟨written, hrun, (Except.ok.inj h).symm⟩
  · cases h

theorem size_region {start bits : BitString} {content : Writing Unit}
    (h : region start content = .ok bits) : bits.size % 8 = 0 := by
  obtain ⟨written, -, rfl⟩ := of_region h
  rw [size_padTo_eight, alignUp_mod_eight]

/-- What the checks of a list let pass: it has postings, no more than occurrences, and the
values of both sequences fit 32 bits. -/
theorem check_eq_ok {header : ListHeader} {docs freqs : List Nat} :
    builder.check header docs freqs = .ok () ↔
      0 < header.size ∧ header.size ≤ header.occurrences ∧ docs.length = header.size ∧
        freqs.length = header.size ∧ builder.numDocs ≤ 2 ^ 32 ∧
        ListHeader.sumsUniv header.occurrences ≤ 2 ^ 32 := by
  rw [check]
  by_cases hsize : header.size = 0
  · rw [if_pos hsize]
    constructor
    · intro h
      cases h
    · rintro ⟨hpos, -⟩
      exact absurd hsize (Nat.ne_of_gt hpos)
  rw [if_neg hsize]
  by_cases hocc : header.occurrences < header.size
  · simp only [if_pos hocc, check_bind_eq_ok]
    constructor
    · rintro ⟨-, -, h, -⟩
      cases h
    · rintro ⟨-, hle, -⟩
      exact absurd hocc (Nat.not_lt.mpr hle)
  simp only [if_neg hocc, check_bind_eq_ok, checkArgument_eq_ok, checkUniverse_eq_ok, beq_iff_eq]
  constructor
  · rintro ⟨hdocs, hfreqs, hnum, huniv⟩
    exact ⟨Nat.pos_of_ne_zero hsize, Nat.le_of_not_lt hocc, hdocs, hfreqs, hnum, huniv⟩
  · rintro ⟨-, -, hdocs, hfreqs, hnum, huniv⟩
    exact ⟨hdocs, hfreqs, hnum, huniv⟩

/-- An addition that was encoded, as two regions. -/
structure Encodes (builder : IndexBuilder scheme) (a : Addition) (docs freqs : BitString) :
    Prop where
  check_eq : builder.check a.header a.docs a.freqs = .ok ()
  docs_eq : builder.docsRegion a.header a.docs a.config = .ok docs
  freqs_eq : builder.freqsRegion a.header a.freqs a.config = .ok freqs

/-- Of what was encoded the header is valid, unless its occurrences leave no universe. -/
theorem Encodes.valid {docs freqs : BitString} (h : builder.Encodes a docs freqs)
    (huniv : ListHeader.sumsUniv a.header.occurrences = a.header.occurrences + 1) :
    a.header.Valid := by
  obtain ⟨hpos, hle, -, -, -, hfits⟩ := check_eq_ok.mp h.check_eq
  rw [huniv] at hfits
  exact ⟨hpos, hle, hfits⟩

end IndexBuilder

/-! ## Opening -/

namespace Index

variable {scheme : Scheme} {index : Index scheme} {docs freqs : List BitString} {term : Nat}
  {a : Addition} {docsRegion freqsRegion : BitString}

/-- The docids of a term are opened behind its header. -/
theorem exists_openDocs {builder : IndexBuilder scheme} (hdocs : index.docs.Holds docs)
    (hregion : docs[term]? = some docsRegion) (hvalid : a.header.Valid)
    (hencodes : builder.Encodes a docsRegion freqsRegion)
    (hsound : scheme.docs.Sound builder.params a.config) :
    ∃ start c, (ListHeader.read index.docs.bits).runFrom (index.docs.offset term) =
        (.ok a.header, start) ∧
      scheme.docs.openAt index.docs.bits start builder.numDocs a.header.size builder.params =
        .ok c ∧
      Follows c ⟨a.docs, builder.numDocs, 0⟩ := by
  obtain ⟨-, -, hlength, -, huniv, -⟩ := IndexBuilder.check_eq_ok.mp hencodes.check_eq
  obtain ⟨written, hwrite, rfl⟩ := IndexBuilder.of_region hencodes.docs_eq
  have hsmall : a.docs.length ≤ 2 ^ 32 := by
    rw [hlength]
    exact Nat.le_of_lt hvalid.size_lt
  obtain ⟨hgrown, hopens⟩ := hsound.keeps huniv hsmall hwrite
  have hpart := (hdocs.carries hregion).mono (padTo_extends written 8)
  obtain ⟨hlt, -⟩ := List.getElem?_eq_some_iff.mp hregion
  have haligned := hdocs.aligned term (Nat.le_of_lt hlt)
  have hbehind := hpart.behind (Nat.zero_le _) hgrown
  rw [Nat.sub_zero] at hbehind
  obtain ⟨c, hc, hfollows⟩ := hopens _ _ (by rw [Nat.add_mod, haligned]; omega) hbehind
  rw [hlength] at hc
  exact ⟨_, c, ListHeader.runFrom_read hvalid (hpart.mono hgrown), hc, hfollows⟩

/-- The running sums of the frequencies of a term are opened where its region begins. -/
theorem exists_openSums {builder : IndexBuilder scheme} (hfreqs : index.freqs.Holds freqs)
    (hregion : freqs[term]? = some freqsRegion) (hvalid : a.header.Valid)
    (hencodes : builder.Encodes a docsRegion freqsRegion)
    (hsound : scheme.freqs.Sound builder.params a.config) :
    ∃ sums c, PrefixSums.sumsOf 0 0 a.freqs = .ok sums ∧
      scheme.freqs.openAt index.freqs.bits (index.freqs.offset term)
        (ListHeader.sumsUniv a.header.occurrences) a.header.size builder.params = .ok c ∧
      Follows c ⟨sums, ListHeader.sumsUniv a.header.occurrences, 0⟩ := by
  obtain ⟨-, -, -, hlength, -, huniv⟩ := IndexBuilder.check_eq_ok.mp hencodes.check_eq
  obtain ⟨written, hwrite, rfl⟩ := IndexBuilder.of_region hencodes.freqs_eq
  obtain ⟨sums, hsums, hwrite⟩ := Attempt.of_runFrom_lift_bind hwrite
  obtain ⟨hcount, -, -⟩ := PrefixSums.sumsOf_spec hsums
  have hsmall : sums.length ≤ 2 ^ 32 := by
    rw [hcount, hlength]
    exact Nat.le_of_lt hvalid.size_lt
  obtain ⟨-, hopens⟩ := hsound.keeps huniv hsmall hwrite
  have hpart := (hfreqs.carries hregion).mono (padTo_extends written 8)
  obtain ⟨hlt, -⟩ := List.getElem?_eq_some_iff.mp hregion
  have haligned := hfreqs.aligned term (Nat.le_of_lt hlt)
  obtain ⟨c, hc, hfollows⟩ := hopens _ _ haligned hpart
  rw [hcount, hlength] at hc
  exact ⟨sums, c, hsums, hc, hfollows⟩

/-- **What was encoded is read.** -/
theorem exists_get {builder : IndexBuilder scheme} (hparams : builder.params = index.params)
    (hnumDocs : builder.numDocs = index.numDocs) (hdocs : index.docs.Holds docs)
    (hfreqs : index.freqs.Holds freqs) (hdocsRegion : docs[term]? = some docsRegion)
    (hfreqsRegion : freqs[term]? = some freqsRegion)
    (hvalid : a.header.Valid) (hencodes : builder.Encodes a docsRegion freqsRegion)
    (hsoundDocs : scheme.docs.Sound builder.params a.config)
    (hsoundFreqs : scheme.freqs.Sound builder.params a.config) :
    ∃ c, index.get term = .ok c ∧
      c.Reads ⟨a.docs, index.numDocs, 0⟩ a.freqs a.header.occurrences := by
  obtain ⟨start, cd, hread, hopenDocs, hfollowDocs⟩ :=
    exists_openDocs hdocs hdocsRegion hvalid hencodes hsoundDocs
  obtain ⟨sums, cf, hsums, hopenFreqs, hfollowFreqs⟩ :=
    exists_openSums hfreqs hfreqsRegion hvalid hencodes hsoundFreqs
  rw [hparams, hnumDocs] at hopenDocs
  rw [hparams] at hopenFreqs
  rw [hnumDocs] at hfollowDocs
  obtain ⟨-, -, hlengthDocs, hlengthFreqs, -⟩ := IndexBuilder.check_eq_ok.mp hencodes.check_eq
  have hlength : a.docs.length = a.freqs.length := hlengthDocs.trans hlengthFreqs.symm
  obtain ⟨hlt, -⟩ := List.getElem?_eq_some_iff.mp hdocsRegion
  have hterm : ¬ index.size ≤ term := by
    rw [Index.size, hdocs.size_eq]
    exact Nat.not_le.mpr hlt
  have hfollow : (⟨cd, ⟨cf⟩, a.header.occurrences⟩ : DocumentCursor scheme).Follow
      ⟨a.docs, index.numDocs, 0⟩ sums (ListHeader.sumsUniv a.header.occurrences)
      a.header.occurrences :=
    ⟨hfollowDocs, ⟨0, hfollowFreqs⟩, rfl⟩
  obtain ⟨c, hc, hfirst⟩ := hfollow.step (m := .reset) hsums hlength trivial
  refine ⟨c, ?_, hfirst.reads hsums hlength⟩
  rw [get, if_neg hterm, hread]
  change (do
    let docs ← scheme.docs.openAt index.docs.bits start index.numDocs a.header.size index.params
    let freqs ← PrefixSums.openAt scheme.freqs index.freqs.bits (index.freqs.offset term)
      (ListHeader.sumsUniv a.header.occurrences) a.header.size index.params
    DocumentCursor.reset ⟨docs, freqs, a.header.occurrences⟩) = _
  rw [hopenDocs]
  change (do
    let freqs ← PrefixSums.openAt scheme.freqs index.freqs.bits (index.freqs.offset term)
      (ListHeader.sumsUniv a.header.occurrences) a.header.size index.params
    DocumentCursor.reset ⟨cd, freqs, a.header.occurrences⟩) = _
  rw [PrefixSums.openAt, hopenFreqs]
  exact hc

end Index
end Postings
