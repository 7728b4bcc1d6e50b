import Postings.Proofs.Index.Verify

/-!
# The first difference

Two collections that are not the same differ somewhere first: the terms are gone through
in order, of a term the number of postings is looked at before the postings, and of a
posting the docid before the frequency.  `FirstDifference` says which difference that is
and how it is reported.  Nothing in it speaks of an index or of a comparison; it tells
where two lists of lists part.

A comparison in memory reports the first difference, since it passes over what is the same
on both sides.  Verifying an index is such a comparison.
-/

namespace Postings
namespace Index

/-! ## What differs first -/

/-- The first difference of an expected collection from an actual one, and its report.

If all terms that both of them have are the same, one of them goes on.  Of an expected
collection that goes on no more is counted than the one term by which it does. -/
inductive FirstDifference (expected actual : List PostingList) : Error → Prop where
  | size {term : Nat} {list list' : PostingList} (terms : expected.take term = actual.take term)
      (here : expected[term]? = some list) (here' : actual[term]? = some list')
      (differ : list.size ≠ list'.size) :
      FirstDifference expected actual
        (.verificationMismatch term 0 .size list.size list'.size)
  | docid {term position doc doc' : Nat} {list list' : PostingList}
      (terms : expected.take term = actual.take term)
      (here : expected[term]? = some list) (here' : actual[term]? = some list')
      (size : list.size = list'.size)
      (docs : list.docs.take position = list'.docs.take position)
      (freqs : list.freqs.take position = list'.freqs.take position)
      (there : list.docs[position]? = some doc) (there' : list'.docs[position]? = some doc')
      (differ : doc ≠ doc') :
      FirstDifference expected actual (.verificationMismatch term position .docid doc doc')
  | freq {term position freq freq' : Nat} {list list' : PostingList}
      (terms : expected.take term = actual.take term)
      (here : expected[term]? = some list) (here' : actual[term]? = some list')
      (size : list.size = list'.size)
      (docs : list.docs.take (position + 1) = list'.docs.take (position + 1))
      (freqs : list.freqs.take position = list'.freqs.take position)
      (there : list.freqs[position]? = some freq) (there' : list'.freqs[position]? = some freq')
      (differ : freq ≠ freq') :
      FirstDifference expected actual (.verificationMismatch term position .freq freq freq')
  | termCount (terms : expected.take (min expected.length actual.length) =
        actual.take (min expected.length actual.length))
      (differ : expected.length ≠ actual.length) :
      FirstDifference expected actual
        (.verificationMismatch (min expected.length actual.length) 0 .termCount
          (min expected.length (actual.length + 1)) actual.length)

/-! ## Passing over what is the same -/

theorem expect_self (term position : Nat) (field : Field) (value : Nat) :
    expect term position field value value = .ok () :=
  if_pos rfl

theorem expect_eq_error {term position : Nat} {field : Field} {expected actual : Nat}
    (h : expected ≠ actual) :
    expect term position field expected actual =
      .error (.verificationMismatch term position field expected actual) :=
  if_neg (Ne.symm h)

/-- Postings that are the same are passed over. -/
theorem comparePostings_drop (term : Nat) {position k : Nat} {expected actual : List (Nat × Nat)}
    (h : expected.take k = actual.take k) :
    comparePostings term position expected actual =
      comparePostings term (position + k) (expected.drop k) (actual.drop k) := by
  induction k generalizing position expected actual with
  | zero => rfl
  | succ k ih =>
      cases expected with
      | nil =>
          cases actual with
          | nil => rfl
          | cons => cases h
      | cons posting expected =>
          cases actual with
          | nil => cases h
          | cons posting' actual =>
              obtain ⟨doc, freq⟩ := posting
              obtain ⟨rfl, hrest⟩ := List.cons.inj h
              rw [comparePostings, expect_self, expect_self, List.drop_succ_cons,
                List.drop_succ_cons, ← Nat.add_assoc, Nat.add_right_comm]
              exact ih hrest

/-- A list is the same as itself. -/
theorem compareLists_self (term : Nat) {list : PostingList}
    (h : list.docs.length = list.freqs.length) : compareLists term list list = .ok () :=
  (compareLists_eq_ok h).mpr ⟨rfl, List.prefix_refl _⟩

/-- Terms that are the same are passed over. -/
theorem compareFrom_drop {term k : Nat} {expected actual : List PostingList}
    (hpaired : ∀ list ∈ actual, list.docs.length = list.freqs.length)
    (h : expected.take k = actual.take k) (hk : k ≤ expected.length) (hk' : k ≤ actual.length) :
    compareFrom term expected actual =
      compareFrom (term + k) (expected.drop k) (actual.drop k) := by
  induction k generalizing term expected actual with
  | zero => rfl
  | succ k ih =>
      cases expected with
      | nil => cases hk
      | cons list expected =>
          cases actual with
          | nil => cases hk'
          | cons list' actual =>
              obtain ⟨rfl, hrest⟩ := List.cons.inj h
              obtain ⟨hlist, hactual⟩ := List.forall_mem_cons.mp hpaired
              rw [compareFrom, compareLists_self term hlist, List.drop_succ_cons,
                List.drop_succ_cons, ← Nat.add_assoc, Nat.add_right_comm]
              exact ih hactual hrest (Nat.le_of_succ_le_succ hk) (Nat.le_of_succ_le_succ hk')

/-! ## The first difference is reported -/

/-- From a place on, a list is what is there and what is behind it. -/
theorem drop_eq_cons {α : Type} {l : List α} {i : Nat} {a : α} (h : l[i]? = some a) :
    l.drop i = a :: l.drop (i + 1) := by
  obtain ⟨hlt, rfl⟩ := List.getElem?_eq_some_iff.mp h
  exact List.drop_eq_getElem_cons hlt

/-- Lists that are the same up to a position are compared from there. -/
theorem compareLists_at (term : Nat) {position doc freq doc' freq' : Nat}
    {list list' : PostingList} (size : list.size = list'.size)
    (docs : list.docs.take position = list'.docs.take position)
    (freqs : list.freqs.take position = list'.freqs.take position)
    (hdoc : list.docs[position]? = some doc) (hfreq : list.freqs[position]? = some freq)
    (hdoc' : list'.docs[position]? = some doc') (hfreq' : list'.freqs[position]? = some freq') :
    compareLists term list list' = (do
      expect term position .docid doc doc'
      expect term position .freq freq freq'
      comparePostings term (position + 1) ((list.docs.zip list.freqs).drop (position + 1))
        ((list'.docs.zip list'.freqs).drop (position + 1))) := by
  have hsame : (list.docs.zip list.freqs).take position =
      (list'.docs.zip list'.freqs).take position := by
    rw [List.zip_eq_zipWith, List.zip_eq_zipWith, List.take_zipWith, List.take_zipWith, docs,
      freqs]
  have hthere : (list.docs.zip list.freqs)[position]? = some (doc, freq) :=
    List.getElem?_zip_eq_some.mpr ⟨hdoc, hfreq⟩
  have hthere' : (list'.docs.zip list'.freqs)[position]? = some (doc', freq') :=
    List.getElem?_zip_eq_some.mpr ⟨hdoc', hfreq'⟩
  rw [compareLists, size, expect_self, comparePostings_drop term hsame, Nat.zero_add,
    drop_eq_cons hthere, drop_eq_cons hthere', comparePostings]
  rfl

/-- Collections that are the same up to a term are compared from there. -/
theorem compareFrom_at {expected actual : List PostingList}
    (hactual : ∀ list ∈ actual, list.docs.length = list.freqs.length) {term : Nat}
    {list list' : PostingList} (terms : expected.take term = actual.take term)
    (here : expected[term]? = some list) (here' : actual[term]? = some list') {e : Error}
    (h : compareLists term list list' = .error e) : compareFrom 0 expected actual = .error e := by
  have hlt := (List.getElem?_eq_some_iff.mp here).1
  have hlt' := (List.getElem?_eq_some_iff.mp here').1
  rw [compareFrom_drop hactual terms (Nat.le_of_lt hlt) (Nat.le_of_lt hlt'), Nat.zero_add,
    drop_eq_cons here, drop_eq_cons here', compareFrom, h]
  rfl

/-- Lists of one length have an element at the same places. -/
theorem exists_getElem?_of_length_eq {α β : Type} {a : List α} {b : List β}
    (h : a.length = b.length) {i : Nat} {x : α} (hx : a[i]? = some x) : ∃ y, b[i]? = some y := by
  have hlt := (List.getElem?_eq_some_iff.mp hx).1
  rw [h] at hlt
  exact ⟨_, List.getElem?_eq_getElem hlt⟩

/-- **The first difference is what a comparison reports.** -/
theorem FirstDifference.compareFrom_eq {expected actual : List PostingList} {mismatch : Error}
    (hexpected : ∀ list ∈ expected, list.docs.length = list.freqs.length)
    (hactual : ∀ list ∈ actual, list.docs.length = list.freqs.length)
    (h : FirstDifference expected actual mismatch) :
    compareFrom 0 expected actual = .error mismatch := by
  cases h with
  | size terms here here' differ =>
      refine compareFrom_at hactual terms here here' ?_
      rw [compareLists, expect_eq_error differ]
      rfl
  | docid terms here here' size docs freqs there there' differ =>
      refine compareFrom_at hactual terms here here' ?_
      obtain ⟨freq, hfreq⟩ :=
        exists_getElem?_of_length_eq (hexpected _ (List.mem_of_getElem? here)) there
      obtain ⟨freq', hfreq'⟩ :=
        exists_getElem?_of_length_eq (hactual _ (List.mem_of_getElem? here')) there'
      rw [compareLists_at _ size docs freqs there hfreq there' hfreq', expect_eq_error differ]
      rfl
  | @freq term position freq freq' list list' terms here here' size docs freqs there there'
      differ =>
      refine compareFrom_at hactual terms here here' ?_
      obtain ⟨doc, hdoc⟩ :=
        exists_getElem?_of_length_eq (hexpected _ (List.mem_of_getElem? here)).symm there
      have hdoc' : list'.docs[position]? = some doc := by
        rw [← hdoc, ← List.getElem?_take_of_lt (Nat.lt_succ_self position), ← docs,
          List.getElem?_take_of_lt (Nat.lt_succ_self position)]
      have hbefore : list.docs.take position = list'.docs.take position := by
        have htake := congrArg (List.take position) docs
        rwa [List.take_take, List.take_take, Nat.min_eq_left (Nat.le_succ position)] at htake
      rw [compareLists_at _ size hbefore freqs hdoc there hdoc' there', expect_self,
        expect_eq_error differ]
      rfl
  | termCount terms differ =>
      rw [compareFrom_drop hactual terms (Nat.min_le_left _ _) (Nat.min_le_right _ _),
        Nat.zero_add]
      rcases Nat.lt_or_gt_of_ne differ with hshort | hlong
      · rw [Nat.min_eq_left (Nat.le_of_lt hshort), List.drop_length, compareFrom,
          List.length_drop, Nat.add_sub_cancel' (Nat.le_of_lt hshort),
          Nat.min_eq_left (Nat.le_succ_of_le (Nat.le_of_lt hshort)),
          expect_eq_error differ]
      · rw [Nat.min_eq_right (Nat.le_of_lt hlong), List.drop_length,
          List.drop_eq_getElem_cons hlong, compareFrom, Nat.min_eq_right hlong]

/-! ## There is a first difference -/

/-- Lists that are not the same are the same up to a place where they are not. -/
theorem exists_take_eq {α : Type} {a b : List α} (h : a ≠ b) :
    ∃ k : Nat, a.take k = b.take k ∧ a[k]? ≠ b[k]? := by
  classical
  have hex : ∃ k : Nat, a[k]? ≠ b[k]? := by
    by_contra hnone
    push Not at hnone
    exact h (List.ext_getElem? fun k : Nat => hnone k)
  refine ⟨Nat.find hex, List.ext_getElem? fun i : Nat => ?_, Nat.find_spec hex⟩
  rw [List.getElem?_take, List.getElem?_take]
  split
  · rename_i hlt
    exact not_not.mp (Nat.find_min hex hlt)
  · rfl

/-- Lists of as many postings that are not the same list differ at a posting. -/
theorem exists_posting_ne {list list' : PostingList}
    (hlist : list.docs.length = list.freqs.length)
    (hlist' : list'.docs.length = list'.freqs.length) (size : list.size = list'.size)
    (hne : list ≠ list') :
    ∃ (position : Nat) (posting posting' : Nat × Nat),
      list.docs.take position = list'.docs.take position ∧
      list.freqs.take position = list'.freqs.take position ∧
      (list.docs.zip list.freqs)[position]? = some posting ∧
      (list'.docs.zip list'.freqs)[position]? = some posting' ∧ posting ≠ posting' := by
  have size : list.docs.length = list'.docs.length := size
  have hzip : list.docs.zip list.freqs ≠ list'.docs.zip list'.freqs := fun heq =>
    hne (Passes.eq ⟨size, heq ▸ List.prefix_refl _⟩ hlist hlist')
  obtain ⟨position, htake, hthere⟩ := exists_take_eq hzip
  have hdocs := congrArg (List.map Prod.fst) htake
  have hfreqs := congrArg (List.map Prod.snd) htake
  rw [List.map_take, List.map_take, List.map_fst_zip (by omega), List.map_fst_zip (by omega)]
    at hdocs
  rw [List.map_take, List.map_take, List.map_snd_zip (by omega), List.map_snd_zip (by omega)]
    at hfreqs
  -- Behind the last posting there is nothing on either side.
  have hlt : position < list.docs.length := by
    by_contra hge
    refine hthere ?_
    rw [List.getElem?_eq_none (by rw [List.length_zip]; omega),
      List.getElem?_eq_none (by rw [List.length_zip]; omega)]
  have hin : position < (list.docs.zip list.freqs).length := by
    rw [List.length_zip]
    omega
  have hin' : position < (list'.docs.zip list'.freqs).length := by
    rw [List.length_zip]
    omega
  refine ⟨position, _, _, hdocs, hfreqs, List.getElem?_eq_getElem hin,
    List.getElem?_eq_getElem hin', fun heq => hthere ?_⟩
  rw [List.getElem?_eq_getElem hin, List.getElem?_eq_getElem hin', heq]

/-- Where one collection ends and the other goes on, the numbers of terms differ. -/
theorem exists_firstDifference_of_end {expected actual : List PostingList} {term : Nat}
    (terms : expected.take term = actual.take term)
    (hend : min expected.length actual.length ≤ term)
    (differ : expected.length ≠ actual.length) :
    ∃ mismatch, FirstDifference expected actual mismatch := by
  have htake := congrArg (List.take (min expected.length actual.length)) terms
  rw [List.take_take, List.take_take, Nat.min_eq_left hend] at htake
  exact ⟨_, .termCount htake differ⟩

/-- Collections that are not the same differ somewhere first. -/
theorem exists_firstDifference {expected actual : List PostingList}
    (hexpected : ∀ list ∈ expected, list.docs.length = list.freqs.length)
    (hactual : ∀ list ∈ actual, list.docs.length = list.freqs.length) (hne : expected ≠ actual) :
    ∃ mismatch, FirstDifference expected actual mismatch := by
  obtain ⟨term, terms, hthere⟩ := exists_take_eq hne
  cases here : expected[term]? with
  | none =>
      have hle := List.getElem?_eq_none_iff.mp here
      cases here' : actual[term]? with
      | none => exact absurd (here.trans here'.symm) hthere
      | some list' =>
          have hlt := (List.getElem?_eq_some_iff.mp here').1
          exact exists_firstDifference_of_end terms (by omega) (by omega)
  | some list =>
      have hlt := (List.getElem?_eq_some_iff.mp here).1
      cases here' : actual[term]? with
      | none =>
          have hle := List.getElem?_eq_none_iff.mp here'
          exact exists_firstDifference_of_end terms (by omega) (by omega)
      | some list' =>
          by_cases size : list.size = list'.size
          · have hlists : list ≠ list' := fun heq => hthere (by rw [here, here', heq])
            obtain ⟨position, ⟨doc, freq⟩, ⟨doc', freq'⟩, docs, freqs, there, there', differ⟩ :=
              exists_posting_ne (hexpected list (List.mem_of_getElem? here))
                (hactual list' (List.mem_of_getElem? here')) size hlists
            obtain ⟨hdoc, hfreq⟩ := List.getElem?_zip_eq_some.mp there
            obtain ⟨hdoc', hfreq'⟩ := List.getElem?_zip_eq_some.mp there'
            by_cases hdocs : doc = doc'
            · subst hdocs
              have htake : list.docs.take (position + 1) = list'.docs.take (position + 1) := by
                rw [List.take_add_one, List.take_add_one, docs, hdoc, hdoc']
              have hfreqs : freq ≠ freq' := fun heq => differ (by rw [heq])
              exact ⟨_, .freq terms here here' size htake freqs hfreq hfreq' hfreqs⟩
            · exact ⟨_, .docid terms here here' size docs freqs hdoc hdoc' hdocs⟩
          · exact ⟨_, .size terms here here' size⟩

/-! ## What a comparison answers -/

section Paired

variable {expected actual : List PostingList}
  (hexpected : ∀ list ∈ expected, list.docs.length = list.freqs.length)
  (hactual : ∀ list ∈ actual, list.docs.length = list.freqs.length)

include hexpected hactual

theorem compareFrom_eq_ok_iff : compareFrom 0 expected actual = .ok () ↔ expected = actual := by
  rw [compareFrom_eq_ok hactual]
  constructor
  · intro h
    refine List.ext_getElem h.length_eq fun term hlt hlt' => ?_
    exact (h.get hlt hlt').eq (hexpected _ (List.getElem_mem hlt))
      (hactual _ (List.getElem_mem hlt'))
  · rintro rfl
    exact List.forall₂_same.mpr fun list _ => ⟨rfl, List.prefix_refl _⟩

theorem compareFrom_eq_error_iff {mismatch : Error} :
    compareFrom 0 expected actual = .error mismatch ↔ FirstDifference expected actual mismatch := by
  constructor
  · intro herror
    have hne : expected ≠ actual := by
      intro heq
      rw [(compareFrom_eq_ok_iff hexpected hactual).mpr heq] at herror
      cases herror
    obtain ⟨first, hfirst⟩ := exists_firstDifference hexpected hactual hne
    rw [hfirst.compareFrom_eq hexpected hactual] at herror
    obtain rfl := Except.error.inj herror
    exact hfirst
  · intro hfirst
    exact hfirst.compareFrom_eq hexpected hactual

end Paired

/-! ## What verifying an index reports -/

theorem liftM_eq_error {x : Except Error Unit} {failure : Failure} :
    (liftM x : Except Failure Unit) = .error failure ↔
      ∃ e, failure = .refused e ∧ x = .error e := by
  cases x with
  | error e =>
      constructor
      · intro h
        exact ⟨e, (Except.error.inj h).symm, rfl⟩
      · rintro ⟨e', rfl, h⟩
        rw [h]
        rfl
  | ok a =>
      constructor
      · intro h
        cases h
      · rintro ⟨e, -, h⟩
        cases h

/-- **Verifying an index reports the first difference of a collection from its own**, and
passes where there is none. -/
theorem verify_reports_first_difference {scheme : Scheme} {docsRate freqsRate : Nat}
    (hdocs : Shipped scheme.docs docsRate) (hfreqs : Shipped scheme.freqs freqsRate)
    {numDocs : Nat} {lists : List PostingList} {params : Params} {config : BuildConfig}
    {index : Index scheme} {stats : IndexStats}
    (h : create scheme numDocs lists params config = .ok (index, stats))
    {others : List PostingList}
    (hpaired : ∀ other ∈ others, other.docs.length = other.freqs.length) :
    (index.verify others = .ok () ↔ others = lists) ∧
    ∀ failure, index.verify others = .error failure ↔
      ∃ mismatch, failure = .refused mismatch ∧ FirstDifference others lists mismatch := by
  have hreads := readsAs_of_create hdocs hfreqs h
  rw [verify_eq hreads, liftM_eq_ok, compareFrom_eq_ok_iff hpaired hreads.paired]
  refine ⟨Iff.rfl, fun failure => ?_⟩
  simp only [liftM_eq_error, compareFrom_eq_error_iff hpaired hreads.paired]

theorem verify_reports_first_difference_of_two :
    let scheme : Scheme := ⟨Partitioned.planned .vbyte, GapBlocks.format .vbyte⟩
    let lists : List PostingList := [⟨[7], [1]⟩, ⟨[0, 3, 8], [1, 5, 2]⟩]
    -- The docids part at position two; the frequencies differ there as well.
    let others : List PostingList := [⟨[7], [1]⟩, ⟨[0, 3, 9], [1, 5, 0]⟩, ⟨[], []⟩]
    Shipped scheme.docs 1007 ∧ Shipped scheme.freqs 79 ∧
    (∀ other ∈ others, other.docs.length = other.freqs.length) ∧
    ∃ index stats, create scheme 10 lists {} {} = .ok (index, stats) ∧
      index.verify lists = .ok () ∧
      index.verify others = .error (.refused (.verificationMismatch 1 2 .docid 9 8)) := by
  intro scheme lists others
  have hdocs : Shipped scheme.docs 1007 := .planned .vbyte
  have hfreqs : Shipped scheme.freqs 79 := .gapBlocks .vbyte
  have hpaired : ∀ other ∈ others, other.docs.length = other.freqs.length := by decide
  obtain ⟨⟨index, stats⟩, hcreate⟩ :=
    (@exists_create_iff scheme 10 lists {} {} _ _ hdocs hfreqs).mpr
      ⟨by decide +kernel, by decide +kernel, by decide⟩
  obtain ⟨hpasses, -⟩ := @verify_reports_first_difference scheme _ _ hdocs hfreqs _ _ _ _ _ _
    hcreate lists (by decide)
  obtain ⟨-, hfails⟩ := verify_reports_first_difference hdocs hfreqs hcreate hpaired
  refine ⟨hdocs, hfreqs, hpaired, index, stats, hcreate, hpasses.mpr rfl, (hfails _).mpr ?_⟩
  exact ⟨_, rfl, .docid rfl rfl rfl rfl rfl rfl rfl rfl (by decide)⟩

end Index
end Postings
