import Postings.Index.Verify
import Postings.Proofs.Index.Create

/-!
# What a verification compares

An index that was created of a collection reads as the collection, so comparing the index
with another collection comes to comparing two collections in memory, list by list.  That
comparison goes by the docids of the other list that have a frequency beside them, and
before it only the numbers of docids are compared.  A list with fewer frequencies than
docids is not read to its end, and frequencies that no docid belongs to are not read at
all.

So what is verified is what was compared.  Every list has as many docids as the one of the
index and begins as that one does; and it is that one if each of its docids has its
frequency.
-/

namespace Postings

open SequenceCursor

/-- To make a refusal of several steps is to make a refusal of each. -/
theorem liftM_bind_failure {α β : Type} (x : Except Error α) (f : α → Except Error β) :
    (liftM (x >>= f) : Except Failure β) = liftM x >>= fun a => liftM (f a) := by
  cases x with
  | error e => rfl
  | ok a => rfl

/-! ## A cursor that reads, a move at a time -/

namespace DocumentCursor.Reads

variable {scheme : Scheme} {c : DocumentCursor scheme} {p : Plain} {freqs : List Nat}
  {occurrences : Nat}

theorem shows (h : c.Reads p freqs occurrences) : c.Shows p freqs occurrences := by
  obtain ⟨c', hc', hshows⟩ := h [] trivial
  obtain rfl := Except.ok.inj hc'
  exact hshows

/-- An allowed move succeeds, and the cursor goes on to read. -/
theorem perform (h : c.Reads p freqs occurrences) {m : DocumentMove} (hm : m.Allowed p) :
    ∃ c', c.perform m = .ok c' ∧ c'.Reads (m.apply p) freqs occurrences := by
  cases hc : c.perform m with
  | error e =>
      obtain ⟨c', hc', -⟩ := h [m] ⟨hm, trivial⟩
      rw [run, hc] at hc'
      cases hc'
  | ok c' =>
      refine ⟨c', rfl, fun moves hmoves => ?_⟩
      obtain ⟨last, hlast, hshows⟩ := h (m :: moves) ⟨hm, hmoves⟩
      rw [run, hc] at hlast
      exact ⟨last, hlast, hshows⟩

/-- A frequency is told, and the cursor goes on to read from where it stands. -/
theorem freq (h : c.Reads p freqs occurrences) (hp : p.position < p.values.length) :
    ∃ freq c', freqs[p.position]? = some freq ∧ c.freq = .ok (freq, c') ∧
      c'.Reads p freqs occurrences := by
  obtain ⟨freq, c', hfreq, hc'⟩ := h.shows.freq_eq hp
  obtain ⟨c'', hc'', hreads⟩ := h.perform (m := .freq) hp
  rw [DocumentCursor.perform, hc'] at hc''
  obtain rfl := Except.ok.inj hc''
  exact ⟨freq, c', hfreq, hc', hreads⟩

/-- A cursor follows a walk: it stands at the first position already, and is moved from any
other one to the next. -/
theorem follow (h : c.Reads p freqs occurrences) {position : Nat}
    (hposition : p.position = position - 1) (hlt : position < p.values.length) :
    ∃ here, (if position = 0 then pure c else c.next) = .ok here ∧
      here.Reads { p with position } freqs occurrences := by
  by_cases hzero : position = 0
  · refine ⟨c, if_pos hzero, ?_⟩
    rw [show position = p.position by omega]
    exact h
  · obtain ⟨here, hhere, hreads⟩ :=
      h.perform (m := .next) (show p.position < p.values.length by omega)
    refine ⟨here, (if_neg hzero).trans hhere, ?_⟩
    rw [show position = p.position + 1 by omega]
    exact hreads

end DocumentCursor.Reads

namespace Index

variable {scheme : Scheme} {index : Index scheme}

/-! ## Comparing in memory -/

/-- Compares postings in memory with others, from a position on. -/
def comparePostings (term : Nat) :
    (position : Nat) → (expected actual : List (Nat × Nat)) → Except Error Unit
  | position, (doc, freq) :: expected, (doc', freq') :: actual => do
      expect term position .docid doc doc'
      expect term position .freq freq freq'
      comparePostings term (position + 1) expected actual
  | _, _, _ => .ok ()

/-- Compares a list in memory with another. -/
def compareLists (term : Nat) (expected actual : PostingList) : Except Error Unit := do
  expect term 0 .size expected.size actual.size
  comparePostings term 0 (expected.docs.zip expected.freqs) (actual.docs.zip actual.freqs)

/-- Compares lists in memory with others, from a term on. -/
def compareFrom : (term : Nat) → (expected actual : List PostingList) → Except Error Unit
  | term, [], actual => expect term 0 .termCount term (term + actual.length)
  | term, _ :: _, [] => .error (.verificationMismatch term 0 .termCount (term + 1) term)
  | term, list :: expected, list' :: actual => do
      compareLists term list list'
      compareFrom (term + 1) expected actual

theorem expect_eq_ok {term position : Nat} {field : Field} {expected actual : Nat} :
    expect term position field expected actual = .ok () ↔ actual = expected := by
  rw [expect]
  split
  · rename_i h
    exact ⟨fun _ => h, fun _ => rfl⟩
  · rename_i h
    exact ⟨fun hok => (by cases hok), fun heq => absurd heq h⟩

/-- Postings are found equal when they are those that the others begin with. -/
theorem comparePostings_eq_ok {term position : Nat} {expected actual : List (Nat × Nat)}
    (hlength : expected.length ≤ actual.length) :
    comparePostings term position expected actual = .ok () ↔ expected <+: actual := by
  induction expected generalizing position actual with
  | nil => exact ⟨fun _ => List.nil_prefix, fun _ => rfl⟩
  | cons posting expected ih =>
      cases actual with
      | nil => cases hlength
      | cons posting' actual =>
          obtain ⟨doc, freq⟩ := posting
          obtain ⟨doc', freq'⟩ := posting'
          rw [comparePostings, check_bind_eq_ok, check_bind_eq_ok, expect_eq_ok, expect_eq_ok,
            ih (Nat.le_of_succ_le_succ hlength), List.cons_prefix_cons, Prod.mk.injEq]
          constructor
          · rintro ⟨rfl, rfl, h⟩
            exact ⟨⟨rfl, rfl⟩, h⟩
          · rintro ⟨⟨rfl, rfl⟩, h⟩
            exact ⟨rfl, rfl, h⟩

/-- A list goes for another one: it has as many docids, and begins with the postings that the
other one begins with. -/
def Passes (list other : PostingList) : Prop :=
  list.docs.length = other.docs.length ∧
    list.docs.zip list.freqs <+: other.docs.zip other.freqs

theorem compareLists_eq_ok {term : Nat} {list other : PostingList}
    (hpaired : other.docs.length = other.freqs.length) :
    compareLists term list other = .ok () ↔ Passes list other := by
  rw [compareLists, check_bind_eq_ok, expect_eq_ok]
  constructor
  · rintro ⟨hsize, h⟩
    have hsize : list.docs.length = other.docs.length := hsize.symm
    refine ⟨hsize, (comparePostings_eq_ok ?_).mp h⟩
    rw [List.length_zip, List.length_zip]
    omega
  · rintro ⟨hsize, h⟩
    exact ⟨hsize.symm, (comparePostings_eq_ok h.length_le).mpr h⟩

/-- Collections are found equal when list by list the one goes for the other. -/
theorem compareFrom_eq_ok {term : Nat} {expected actual : List PostingList}
    (hpaired : ∀ list ∈ actual, list.docs.length = list.freqs.length) :
    compareFrom term expected actual = .ok () ↔ List.Forall₂ Passes expected actual := by
  induction expected generalizing term actual with
  | nil =>
      rw [compareFrom, expect_eq_ok, List.forall₂_nil_left_iff]
      constructor
      · intro h
        exact List.length_eq_zero_iff.mp (by omega)
      · rintro rfl
        rfl
  | cons list expected ih =>
      cases actual with
      | nil =>
          constructor
          · intro h
            cases h
          · intro h
            cases h
      | cons other actual =>
          obtain ⟨hother, hactual⟩ := List.forall_mem_cons.mp hpaired
          rw [compareFrom, check_bind_eq_ok, compareLists_eq_ok hother, ih hactual,
            List.forall₂_cons]

/-- A list that goes for another one and has a frequency for each docid is the other one. -/
theorem Passes.eq {list other : PostingList} (h : Passes list other)
    (hlist : list.docs.length = list.freqs.length)
    (hother : other.docs.length = other.freqs.length) : list = other := by
  obtain ⟨hsize, hprefix⟩ := h
  have hzip := hprefix.eq_of_length (by rw [List.length_zip, List.length_zip]; omega)
  have hdocs := congrArg (List.map Prod.fst) hzip
  have hfreqs := congrArg (List.map Prod.snd) hzip
  rw [List.map_fst_zip (by omega), List.map_fst_zip (by omega)] at hdocs
  rw [List.map_snd_zip (by omega), List.map_snd_zip (by omega)] at hfreqs
  cases list
  cases other
  exact congrArg₂ PostingList.mk hdocs hfreqs

/-! ## Comparing an index -/

/-- Every term of an index reads as the list of a collection. -/
structure ReadsAs (index : Index scheme) (lists : List PostingList) : Prop where
  size_eq : index.size = lists.length
  paired : ∀ list ∈ lists, list.docs.length = list.freqs.length
  get : ∀ {term list}, lists[term]? = some list → ∃ c occurrences, index.get term = .ok c ∧
    c.Reads ⟨list.docs, index.numDocs, 0⟩ list.freqs occurrences

/-- An index reads as the collection that it was created of. -/
theorem readsAs_of_create {docsRate freqsRate : Nat} (hdocs : Shipped scheme.docs docsRate)
    (hfreqs : Shipped scheme.freqs freqsRate) {numDocs : Nat} {lists : List PostingList}
    {params : Params} {config : BuildConfig} {stats : IndexStats}
    (h : create scheme numDocs lists params config = .ok (index, stats)) :
    index.ReadsAs lists := by
  obtain ⟨-, -, hlists, builder, parts, rfl, -, -, hholds⟩ := of_create h
  refine ⟨?_, fun list hlist => ?_, fun {term list} hlist => ?_⟩
  · have hsize := hholds.docs.size_eq
    rw [List.length_map, ← hholds.encodes.length_eq, List.length_map] at hsize
    exact hsize
  · exact (PostingList.validate_eq_ok.mp (hlists list hlist).1).2.1
  · have hterm : (lists.map (·.addition config))[term]? = some (list.addition config) := by
      rw [List.getElem?_map, hlist]
      rfl
    obtain ⟨-, _, _, hencodes⟩ := hlists list (List.mem_of_getElem? hlist)
    have hlt : list.occurrences < 2 ^ 64 :=
      Nat.lt_trans (IndexBuilder.occurrences_lt_of_encodes hfreqs hencodes) (by decide)
    obtain ⟨c, hc, hreads⟩ := hholds.exists_get hdocs hfreqs hterm hlt
    exact ⟨c, _, hc, hreads⟩

/-- The cursor is moved, if it is not there, and then its posting is compared. -/
theorem verifyPostings_cons (c : DocumentCursor scheme) (term position doc freq : Nat)
    (postings : List (Nat × Nat)) :
    verifyPostings term position c ((doc, freq) :: postings) =
      ((if position = 0 then pure c else c.next) >>= fun c => do
        expect term position .docid doc c.docid
        let (actual, c) ← c.freq
        expect term position .freq freq actual
        verifyPostings term (position + 1) c postings) := by
  rw [verifyPostings]
  split
  · rfl
  · rfl

/-- Postings are compared with those that a cursor reads.  Before the first of them the cursor
stands at the first position, and before a later one at the position before it. -/
theorem verifyPostings_eq {c : DocumentCursor scheme} {p : Plain} {freqs : List Nat}
    {occurrences : Nat} (hreads : c.Reads p freqs occurrences)
    (hpaired : p.values.length = freqs.length) (term : Nat) {position : Nat}
    (hposition : p.position = position - 1) {postings : List (Nat × Nat)}
    (hfits : position + postings.length ≤ p.values.length) :
    verifyPostings term position c postings =
      liftM (comparePostings term position postings ((p.values.zip freqs).drop position)) := by
  induction postings generalizing c p position with
  | nil => rfl
  | cons posting postings ih =>
      obtain ⟨doc, freq⟩ := posting
      rw [List.length_cons] at hfits
      have hlt : position < p.values.length := by omega
      obtain ⟨here, hhere, hreads⟩ := hreads.follow hposition hlt
      obtain ⟨actual, told, hactual, htold, hreads'⟩ := hreads.freq hlt
      have hdocid : here.docid = p.values[position] :=
        hreads.shows.docid_eq.trans (Plain.value_of_lt hlt)
      obtain ⟨hlt', hactual⟩ := List.getElem?_eq_some_iff.mp hactual
      rw [verifyPostings_cons, List.drop_eq_getElem_cons (by rw [List.length_zip]; omega),
        List.getElem_zip, comparePostings, hhere, liftM_bind_failure]
      change (liftM (expect term position .docid doc here.docid) >>= fun _ => do
        let (actual, c) ← here.freq
        expect term position .freq freq actual
        verifyPostings term (position + 1) c postings) = _
      rw [hdocid, htold]
      refine congrArg _ (funext fun _ => ?_)
      rw [liftM_bind_failure]
      change (liftM (expect term position .freq freq actual) >>= fun _ =>
        verifyPostings term (position + 1) told postings) = _
      rw [← hactual]
      refine congrArg _ (funext fun _ => ?_)
      exact ih hreads' hpaired rfl (show position + 1 + postings.length ≤ p.values.length by omega)

theorem verifyTerm_eq {lists : List PostingList} (h : index.ReadsAs lists) {term : Nat}
    {list : PostingList} (hlist : lists[term]? = some list) (other : PostingList) :
    index.verifyTerm term other = liftM (compareLists term other list) := by
  have hlt : term < lists.length := (List.getElem?_eq_some_iff.mp hlist).1
  obtain ⟨c, occurrences, hc, hreads⟩ := h.get hlist
  have hsize : c.size = list.size := hreads.shows.size_eq
  rw [verifyTerm, if_neg (by rw [h.size_eq]; omega), hc, compareLists, liftM_bind_failure]
  change (liftM (expect term 0 .size other.size c.size) >>= fun _ =>
    verifyPostings term 0 c (other.docs.zip other.freqs)) = _
  rw [hsize]
  by_cases heq : list.size = other.size
  · refine congrArg _ (funext fun _ => ?_)
    refine verifyPostings_eq hreads (h.paired list (List.mem_of_getElem? hlist)) term rfl ?_
    have hdocs : list.docs.length = other.docs.length := heq
    rw [List.length_zip]
    change 0 + min other.docs.length other.freqs.length ≤ list.docs.length
    omega
  · rw [expect, if_neg heq]
    rfl

/-- **Verifying an index compares its collection**, as if that were in memory. -/
theorem verify_eq {lists : List PostingList} (h : index.ReadsAs lists)
    (others : List PostingList) : index.verify others = liftM (compareFrom 0 others lists) := by
  have hfrom : ∀ others term, term ≤ lists.length →
      index.verifyFrom term others = liftM (compareFrom term others (lists.drop term)) := by
    intro others
    induction others with
    | nil =>
        intro term hterm
        rw [verifyFrom, compareFrom, List.length_drop, h.size_eq, Nat.add_sub_cancel' hterm]
    | cons other others ih =>
        intro term hterm
        rw [verifyFrom]
        rcases Nat.lt_or_eq_of_le hterm with hlt | rfl
        · rw [List.drop_eq_getElem_cons hlt, compareFrom, liftM_bind_failure,
            verifyTerm_eq h (List.getElem?_eq_getElem hlt)]
          exact congrArg _ (funext fun _ => ih (term + 1) hlt)
        · rw [List.drop_length, compareFrom, verifyTerm, if_pos (Nat.le_of_eq h.size_eq), h.size_eq]
          rfl
  exact hfrom others 0 (Nat.zero_le _)

/-! ## What is verified -/

theorem liftM_eq_ok {x : Except Error Unit} :
    (liftM x : Except Failure Unit) = .ok () ↔ x = .ok () := by
  cases x with
  | error e =>
      constructor
      · intro h
        cases h
      · intro h
        cases h
  | ok a => exact ⟨fun _ => rfl, fun _ => rfl⟩

/-- **What passes is the collection of the index exactly where its docids have their
frequencies.** -/
theorem verified_eq_iff_paired {docsRate freqsRate : Nat} (hdocs : Shipped scheme.docs docsRate)
    (hfreqs : Shipped scheme.freqs freqsRate) {numDocs : Nat} {lists : List PostingList}
    {params : Params} {config : BuildConfig} {stats : IndexStats}
    (h : create scheme numDocs lists params config = .ok (index, stats))
    (others : List PostingList) :
    -- What passes: as many lists, and each of them goes for the one of the index.
    (index.verify others = .ok () ↔
      List.Forall₂ (fun other list => other.docs.length = list.docs.length ∧
        other.docs.zip other.freqs <+: list.docs.zip list.freqs) others lists) ∧
    -- When that means that the collections are the same.
    (index.verify others = .ok () →
      (others = lists ↔ ∀ other ∈ others, other.docs.length = other.freqs.length)) := by
  have hreads := readsAs_of_create hdocs hfreqs h
  have hiff : index.verify others = .ok () ↔ List.Forall₂ Passes others lists := by
    rw [verify_eq hreads, liftM_eq_ok, compareFrom_eq_ok hreads.paired]
  refine ⟨hiff, fun hverified => ⟨?_, fun hpaired => ?_⟩⟩
  · rintro rfl
    exact hreads.paired
  · have hpasses := hiff.mp hverified
    refine List.ext_getElem hpasses.length_eq fun term hother hlist => ?_
    exact (hpasses.get hother hlist).eq (hpaired _ (List.getElem_mem hother))
      (hreads.paired _ (List.getElem_mem hlist))

theorem verified_eq_iff_paired_of_two :
    let scheme : Scheme := ⟨Partitioned.planned .vbyte, GapBlocks.format .vbyte⟩
    let lists : List PostingList := [⟨[7], [1]⟩, ⟨[0, 3, 8], [1, 5, 2]⟩]
    let others : List PostingList := [⟨[7], [1]⟩, ⟨[0, 3, 9], [1, 5]⟩]
    Shipped scheme.docs 1007 ∧ Shipped scheme.freqs 79 ∧
    ∃ index stats, create scheme 10 lists {} {} = .ok (index, stats) ∧
      index.verify lists = .ok () ∧ index.verify others = .ok () ∧ others ≠ lists := by
  intro scheme lists others
  have hdocs : Shipped scheme.docs 1007 := .planned .vbyte
  have hfreqs : Shipped scheme.freqs 79 := .gapBlocks .vbyte
  obtain ⟨⟨index, stats⟩, hcreate⟩ :=
    (@exists_create_iff scheme 10 lists {} {} _ _ hdocs hfreqs).mpr
      ⟨by decide +kernel, by decide +kernel, by decide⟩
  obtain ⟨hlists, -⟩ := verified_eq_iff_paired hdocs hfreqs hcreate lists
  obtain ⟨hothers, heq⟩ := verified_eq_iff_paired hdocs hfreqs hcreate others
  have hpasses := hothers.mpr (.cons ⟨rfl, by decide⟩ (.cons ⟨rfl, by decide⟩ .nil))
  refine ⟨hdocs, hfreqs, index, stats, hcreate, hlists.mpr ?_, hpasses, ?_⟩
  · exact .cons ⟨rfl, List.prefix_refl _⟩ (.cons ⟨rfl, List.prefix_refl _⟩ .nil)
  · exact fun h => absurd ((heq hpasses).mp h ⟨[0, 3, 9], [1, 5]⟩ (by decide)) (by decide)

/-- A list of one frequency passes for one of two, though its other docid is another one. -/
theorem unpaired_docid_passes :
    let lists : List PostingList := [⟨[1, 7], [2, 3]⟩]
    let others : List PostingList := [⟨[1, 8], [2]⟩]
    ∃ index stats, create (.uniform EliasFano.format.toFormat) 10 lists {} {} = .ok (index, stats) ∧
      index.verify others = .ok () ∧ others ≠ lists := by
  intro lists others
  have hcreated : ∃ created,
      create (.uniform EliasFano.format.toFormat) 10 lists {} {} = .ok created ∧
      created.1.verify others = .ok () := by
    refine ⟨_, rfl, ?_⟩
    decide +kernel
  obtain ⟨⟨index, stats⟩, hcreate, hverify⟩ := hcreated
  exact ⟨index, stats, hcreate, hverify, by decide⟩

end Index
end Postings
