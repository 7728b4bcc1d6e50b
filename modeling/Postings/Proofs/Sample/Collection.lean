import Postings.Proofs.Index.PostingList
import Postings.Proofs.Sample.Docs
import Postings.Sample.Collection

/-!
# Collections that are sampled

A collection is sampled for a description that can be met.  Whatever the source shows, every
list of it meets the description (`CollectionSpec.Fits`), and so it is fit for the collection
of documents.  A list whose docids are drawn until enough are different may take any number of
rounds; where every list has more than half of the documents, none is drawn so.
-/

namespace Postings

/-! ## Descriptions -/

/-- The list is as the description wants it. -/
structure CollectionSpec.Fits (spec : CollectionSpec) (list : PostingList) : Prop where
  min_le : spec.minLen ≤ list.size
  le_max : list.size ≤ spec.maxLen
  increasing : list.docs.Pairwise (· < ·)
  below : ∀ d ∈ list.docs, d < spec.numDocs
  length_freqs : list.freqs.length = list.size
  freq_bounds : ∀ f ∈ list.freqs, 1 ≤ f ∧ f ≤ spec.maxFreq

/-- What the check of a description wants. -/
structure CollectionSpec.Sound (spec : CollectionSpec) : Prop where
  docs_le : spec.numDocs ≤ 2 ^ 32
  min_pos : 0 < spec.minLen
  min_le : spec.minLen ≤ spec.maxLen
  max_le : spec.maxLen ≤ spec.numDocs
  freq_pos : 0 < spec.maxFreq

namespace CollectionSpec

variable {spec : CollectionSpec}

theorem sound_of_check (h : spec.check = .ok ()) : spec.Sound := by
  by_cases hnone : spec.numDocs = 0
  · simp only [check, if_pos hnone] at h
    cases h
  by_cases hmany : maxUniverse < spec.numDocs
  · simp only [check, if_neg hnone, if_pos hmany] at h
    cases h
  by_cases hlens : spec.minLen = 0 ∨ spec.maxLen < spec.minLen
  · simp only [check, if_neg hnone, if_neg hmany, if_pos hlens] at h
    cases h
  by_cases hlong : spec.numDocs < spec.maxLen
  · simp only [check, if_neg hnone, if_neg hmany, if_neg hlens, if_pos hlong] at h
    cases h
  by_cases hfreq : spec.maxFreq = 0
  · simp only [check, if_neg hnone, if_neg hmany, if_neg hlens, if_neg hlong, if_pos hfreq] at h
    cases h
  simp only [maxUniverse] at hmany
  exact ⟨by omega, by omega, by omega, by omega, by omega⟩

/-- A list as the description wants it is fit for the documents. -/
theorem Fits.validate {list : PostingList} (h : spec.Fits list) (hsound : spec.Sound) :
    list.validate spec.numDocs = .ok () := by
  have hmin := h.min_le
  have hpos := hsound.min_pos
  rw [PostingList.validate_eq_ok]
  refine ⟨fun hnil => ?_, h.length_freqs.symm, h.increasing, h.below,
    fun f hf => (h.freq_bounds f hf).1⟩
  rw [PostingList.size, hnil, List.length_nil] at hmin
  omega

end CollectionSpec

namespace Sample

variable {σ : Type} (draws : Draws σ)

/-! ## Frequencies -/

theorem freq_bounds {maxFreq : Nat} (h : 0 < maxFreq) :
    Always (freq draws maxFreq) fun f => 1 ≤ f ∧ f ≤ maxFreq := by
  rw [freq]
  refine (Always.any _).bind fun byte _ => ?_
  split
  · exact .between draws h
  · have hfew : Always (draws.between 32 1 (min maxFreq 3)) _ := .between draws (by omega)
    exact ⟨fun s => ⟨(hfew.run s).1, Nat.le_trans (hfew.run s).2 (Nat.min_le_left _ _)⟩⟩

theorem freqs_bounds {maxFreq : Nat} (h : 0 < maxFreq) (len : Nat) :
    Always (freqs draws maxFreq len) fun fs =>
      fs.length = len ∧ ∀ f ∈ fs, 1 ≤ f ∧ f ≤ maxFreq := by
  induction len with
  | zero => exact .pure ⟨rfl, by simp⟩
  | succ len ih =>
      rw [freqs]
      refine (freq_bounds draws h).bind fun f hf => ih.bind fun fs hfs => .pure ?_
      exact ⟨by simp [hfs.1], by simpa using ⟨hf, hfs.2⟩⟩

/-! ## Lists -/

variable {spec : CollectionSpec} (hsound : spec.Sound) (rounds : Nat)

include hsound

theorem postingList_fits :
    Answers (spec.numDocs < 2 * spec.minLen) (postingList draws rounds spec) spec.Fits := by
  have hmax := hsound.max_le
  rw [postingList]
  refine (Answers.lift (Always.between draws hsound.min_le)).bind fun len hlen => ?_
  have hfits : len ≤ spec.numDocs := by omega
  have hlist : ∀ docs, Docids 0 spec.numDocs len docs →
      Answers (spec.numDocs < 2 * spec.minLen)
        (do return { docs, freqs := ← freqs draws spec.maxFreq len } :
          OptionT (StateM σ) PostingList) spec.Fits := by
    intro docs hdocs
    refine (Answers.lift (freqs_bounds draws hsound.freq_pos len)).bind fun fs hfs => .pure ?_
    have hsize : docs.length = len := hdocs.length_eq
    exact ⟨Nat.le_trans hlen.1 hsize.ge, Nat.le_trans hsize.le hlen.2, hdocs.increasing,
      fun d hd => (hdocs.bounds d hd).2, hfs.1.trans hsize.symm, hfs.2⟩
  refine (Answers.lift (Always.any _)).bind fun coin _ => ?_
  cases coin with
  | true =>
      have huniform := uniformDocs_docids draws hsound.docs_le hfits rounds
      exact (huniform.weaken (by omega)).bind hlist
  | false => exact (Answers.lift (clusteredDocs_docids draws hsound.docs_le hfits)).bind hlist

theorem postingLists_fit (count : Nat) :
    Answers (spec.numDocs < 2 * spec.minLen) (postingLists draws rounds spec count)
      fun lists => lists.length = count ∧ ∀ list ∈ lists, spec.Fits list := by
  induction count with
  | zero => exact .pure ⟨rfl, by simp⟩
  | succ count ih =>
      rw [postingLists]
      refine (postingList_fits draws hsound rounds).bind fun list hlist =>
        ih.bind fun lists hlists => .pure ?_
      exact ⟨by simp [hlists.1], by simpa using ⟨hlist, hlists.2⟩⟩

end Sample

/-! ## Collections -/

/-- A source that shows what is on a tape, as far as the bound allows. -/
def Sample.tape : Draws (List Nat) where
  below _ bound := fun tape => (tape.headD 0 % bound, tape.tail)
  byte := fun tape => (tape.headD 0, tape.tail)
  below_lt _ h := Nat.mod_lt _ h

/-- For a description that is accepted, whatever the source shows and however many rounds are
allowed, sampling goes on or is over with as many lists as described, each as described and so
fit for the documents; it is over where every list has more than half of them.  On the way
selection finds exactly the docids that it is to find, and the gaps of a cluster never take
more slack than there is. -/
theorem sampled_lists_fit {σ : Type} (draws : Draws σ) (rounds : Nat) {spec : CollectionSpec}
    (h : spec.check = .ok ()) (s : σ) :
    (∃ found, Sample.collection draws rounds spec s = .ok found ∧
      (spec.numDocs < 2 * spec.minLen → found ≠ none) ∧
      ∀ lists, found = some lists → lists.length = spec.numTerms ∧
        ∀ list ∈ lists, spec.Fits list ∧ list.validate spec.numDocs = .ok ()) ∧
    ∀ len, spec.minLen ≤ len → len ≤ spec.maxLen → ∀ s,
      ((Sample.select draws spec.numDocs spec.numDocs len).run s).1.length = len ∧
      (Sample.checkedCluster draws len 0 (spec.numDocs - len) 0).run s =
        some ((Sample.clusteredDocs draws len spec.numDocs).run s) := by
  have hsound := CollectionSpec.sound_of_check h
  have hlists := (Sample.postingLists_fit draws hsound rounds spec.numTerms).run.run s
  refine ⟨⟨_, by rw [Sample.collection, h]; rfl, hlists.1, fun lists hfound => ?_⟩,
    fun len _ hlen s => ⟨?_, ?_⟩⟩
  · obtain ⟨hlength, hfit⟩ := hlists.2 lists hfound
    exact ⟨hlength, fun list hlist => ⟨hfit list hlist, (hfit list hlist).validate hsound⟩⟩
  · have hfits := Nat.le_trans hlen hsound.max_le
    exact ((Sample.select_docids draws hsound.docs_le hfits (Nat.le_refl _)).run s).length_eq
  · have hfits := Nat.le_trans hlen hsound.max_le
    have hdocs := hsound.docs_le
    exact (Sample.checkedCluster_agrees draws (by omega)).run s

/-- Three lists of three to six out of ten documents: one that is selected, one that is drawn
in three rounds, the second of which shows nothing new, and one that is a cluster. -/
theorem sampled_lists_fit_of_three :
    let drawn := [4, 0, 9, 2, 3, 4, 1, 3, 0, 2, 1, 0, 16, 1, 15, 4, 20, 0, 3, 2, 16, 2, 0, 3] ++
      [0, 0, 7, 7, 3, 16, 1, 16, 2] ++ [1, 1, 5, 1, 2, 3, 16, 0, 1, 4, 16, 2]
    let selected : PostingList := ⟨[1, 2, 4, 6, 8, 9], [2, 5, 1, 3, 3, 4]⟩
    let distinct : PostingList := ⟨[3, 7], [2, 3]⟩
    let clustered : PostingList := ⟨[1, 4, 8], [1, 5, 3]⟩
    Sample.collection Sample.tape 3 ⟨10, 3, 2, 6, 5⟩ drawn =
        .ok (some [selected, distinct, clustered]) ∧
      ∀ list ∈ [selected, distinct, clustered], list.validate 10 = .ok () := by
  refine ⟨rfl, ?_⟩
  have haccepted : CollectionSpec.check ⟨10, 3, 2, 6, 5⟩ = .ok () := rfl
  obtain ⟨⟨found, hfound, -, hfit⟩, -⟩ := sampled_lists_fit Sample.tape 3 haccepted
    ([4, 0, 9, 2, 3, 4, 1, 3, 0, 2, 1, 0, 16, 1, 15, 4, 20, 0, 3, 2, 16, 2, 0, 3] ++
      [0, 0, 7, 7, 3, 16, 1, 16, 2] ++ [1, 1, 5, 1, 2, 3, 16, 0, 1, 4, 16, 2])
  cases hfound
  exact fun list hlist => ((hfit _ rfl).2 list hlist).2

end Postings
