import Postings.Index.Create
import Postings.Proofs.Index.Builder
import Postings.Proofs.Index.PostingList

/-!
# Indexes read as their collections

Creating an index adds the lists of a collection in order, and the first refusal ends
it.  So an index that was created is the builder after calls that were all accepted, and
every term of it reads as the list it was made of: under every run of moves the cursor
shows the position, the docid and the frequency that the list has there.

What refuses a collection is a check.  A list that passed its checks is encoded, whatever
its formats are, so creating an index comes to checking the whole collection first.
-/

namespace Postings

open SequenceCursor

/-! ## Bounds in a list -/

/-- Where the values are in order, what a bound finds is the first value that is not
below it. -/
theorem Plain.nextGeq_value {p : Plain} (hsorted : p.values.Pairwise (· ≤ ·)) (bound : Nat) :
    (p.nextGeq bound).value = (p.values.find? (bound ≤ ·)).getD p.univ := by
  obtain ⟨values, univ, position⟩ := p
  change (values[values.countP (· < bound)]?).getD univ = (values.find? (bound ≤ ·)).getD univ
  change values.Pairwise (· ≤ ·) at hsorted
  induction values with
  | nil => rfl
  | cons v values ih =>
      obtain ⟨hv, hvalues⟩ := List.pairwise_cons.mp hsorted
      rcases Nat.lt_or_ge v bound with hlt | hge
      · rw [List.countP_cons_of_pos (by simpa using hlt), List.getElem?_cons_succ,
          List.find?_cons_of_neg (by simpa using hlt)]
        exact ih hvalues
      · have hnone : values.countP (· < bound) = 0 := by
          refine List.countP_eq_zero.mpr fun w hw => ?_
          simpa using Nat.le_trans hge (hv w hw)
        rw [List.countP_cons_of_neg (by simpa using hge), hnone,
          List.find?_cons_of_pos (by simpa using hge)]
        rfl

/-! ## Adding a collection -/

/-- The call that adds a list. -/
def PostingList.addition (list : PostingList) (config : BuildConfig) : Addition :=
  ⟨⟨list.occurrences, list.size⟩, list.docs, list.freqs, config⟩

namespace IndexBuilder

variable {scheme : Scheme}

/-- Adding a list that is fit for the collection is calling the builder. -/
theorem runFrom_addList_of_valid {builder : IndexBuilder scheme} {list : PostingList}
    (config : BuildConfig) (h : list.validate builder.numDocs = .ok ()) :
    (addList list config).runFrom builder = builder.call (list.addition config) := by
  rw [addList, Attempt.runFrom_bind, Attempt.runFrom_get]
  simp only [Attempt.runFrom_bind, Attempt.runFrom_lift, h]
  rfl

/-- Lists that were all added were fit for the collection, and have both their regions. -/
theorem of_addLists {lists : List PostingList} {config : BuildConfig}
    {builder after : IndexBuilder scheme}
    (h : Attempt.runFrom (lists.forM (addList · config)) builder = (.ok (), after)) :
    (∀ list ∈ lists, list.validate builder.numDocs = .ok () ∧
      ∃ docs freqs, builder.Encodes (list.addition config) docs freqs) ∧
      builder.afterCalls (lists.map (·.addition config)) = after := by
  induction lists generalizing builder with
  | nil => exact ⟨fun _ hlist => absurd hlist List.not_mem_nil, congrArg Prod.snd h⟩
  | cons list lists ih =>
      rw [List.forM] at h
      obtain ⟨_, next, hadd, hrest⟩ := Attempt.of_runFrom_bind h
      have hadd : Attempt.runFrom (do
          list.validate builder.numDocs
          add ⟨list.occurrences, list.size⟩ list.docs list.freqs config) builder =
          (.ok (), next) := hadd
      obtain ⟨_, hvalidate, hcall⟩ := Attempt.of_runFrom_lift_bind hadd
      have hcall : builder.call (list.addition config) = (.ok (), next) := hcall
      have halike := call_alike builder (list.addition config)
      obtain ⟨docs, freqs, hencodes⟩ := encodes_of_call_ok (congrArg Prod.fst hcall)
      rw [hcall] at halike
      obtain ⟨hlists, hafter⟩ := ih hrest
      refine ⟨List.forall_mem_cons.mpr ⟨⟨hvalidate, docs, freqs, hencodes⟩, fun other hother => ?_⟩,
        ?_⟩
      · obtain ⟨hother, docs, freqs, hencodes⟩ := hlists other hother
        exact ⟨halike.numDocs_eq ▸ hother, docs, freqs, halike.symm.encodes hencodes⟩
      · rw [List.map_cons, afterCalls, hcall, hafter]

/-- Lists that are fit for the collection and have both their regions are all added. -/
theorem exists_addLists {lists : List PostingList} {config : BuildConfig}
    {builder : IndexBuilder scheme}
    (h : ∀ list ∈ lists, list.validate builder.numDocs = .ok () ∧
      ∃ docs freqs, builder.Encodes (list.addition config) docs freqs) :
    ∃ after, Attempt.runFrom (lists.forM (addList · config)) builder = (.ok (), after) := by
  induction lists generalizing builder with
  | nil => exact ⟨builder, rfl⟩
  | cons list lists ih =>
      obtain ⟨⟨hvalidate, docs, freqs, hencodes⟩, hlists⟩ := List.forall_mem_cons.mp h
      have halike := call_alike builder (list.addition config)
      have hok := hencodes.call_ok
      rw [List.forM, Attempt.runFrom_bind, runFrom_addList_of_valid config hvalidate]
      generalize builder.call (list.addition config) = result at halike hok
      obtain ⟨answer, next⟩ := result
      obtain rfl : answer = .ok () := hok
      refine ih fun other hother => ?_
      obtain ⟨hother, docs, freqs, hencodes⟩ := hlists other hother
      exact ⟨halike.numDocs_eq.symm ▸ hother, docs, freqs, halike.encodes hencodes⟩

/-- What a list is asked before anything of it is encoded: that it is fit for the collection,
and that its numbers fit into a header. -/
def checkList (builder : IndexBuilder scheme) (list : PostingList) : Except Error Unit := do
  list.validate builder.numDocs
  builder.check ⟨list.occurrences, list.size⟩ list.docs list.freqs

/-- A list of fewer than `2 ^ 32` occurrences passes its checks once it is fit for the
collection. -/
theorem checkList_of_lt {builder : IndexBuilder scheme} {list : PostingList}
    (hvalidate : list.validate builder.numDocs = .ok ()) (hnumDocs : builder.numDocs ≤ 2 ^ 32)
    (hoccurrences : list.occurrences < 2 ^ 32) : builder.checkList list = .ok () := by
  obtain ⟨hne, hlength, -⟩ := PostingList.validate_eq_ok.mp hvalidate
  have huniv := (ListHeader.sumsUniv_le list.occurrences).trans (Nat.succ_le_of_lt hoccurrences)
  exact check_bind_eq_ok.mpr ⟨hvalidate, check_eq_ok.mpr ⟨List.length_pos_iff.mpr hne,
    PostingList.size_le_occurrences hvalidate, rfl, hlength.symm, hnumDocs, huniv⟩⟩

/-- A list of 32-bit frequencies that passes its checks has no more occurrences than that. -/
theorem occurrences_lt_of_checkList {builder : IndexBuilder scheme} {list : PostingList}
    (hsmall : ∀ freq ∈ list.freqs, freq < 2 ^ 32) (h : builder.checkList list = .ok ()) :
    list.validate builder.numDocs = .ok () ∧ builder.numDocs ≤ 2 ^ 32 ∧
      list.occurrences < 2 ^ 32 := by
  obtain ⟨hvalidate, hcheck⟩ := check_bind_eq_ok.mp h
  obtain ⟨-, -, -, -, hnumDocs, huniv⟩ := check_eq_ok.mp hcheck
  rw [ListHeader.sumsUniv_of_lt (PostingList.occurrences_lt hvalidate hnumDocs hsmall)] at huniv
  exact ⟨hvalidate, hnumDocs, huniv⟩

theorem Alike.checkList_eq {builder after : IndexBuilder scheme} (h : Alike builder after)
    (list : PostingList) : after.checkList list = builder.checkList list := by
  rw [checkList, checkList, h.check_eq, h.numDocs_eq]

section Shipped

variable {builder : IndexBuilder scheme} {docsRate freqsRate : Nat} {config : BuildConfig}
  (hdocs : Shipped scheme.docs docsRate) (hfreqs : Shipped scheme.freqs freqsRate)

include hfreqs in
/-- A list that was encoded has fewer occurrences than `2 ^ 32`: the last of its sums is their
number, and is below their universe. -/
theorem occurrences_lt_of_encodes {list : PostingList} {docs freqs : BitString}
    (h : builder.Encodes (list.addition config) docs freqs) : list.occurrences < 2 ^ 32 := by
  have hsum : list.occurrences < ListHeader.sumsUniv list.occurrences := h.sum_lt hfreqs
  have huniv := Nat.le_antisymm (ListHeader.sumsUniv_le list.occurrences) (Nat.succ_le_of_lt hsum)
  exact (h.valid huniv).occurrences_lt

variable (hparams : builder.params.validate = .ok ()) (hconfig : config.validate = .ok ())

include hdocs hfreqs hparams hconfig

/-- A list of fewer than `2 ^ 32` occurrences has both its regions once it is fit for the
collection. -/
theorem exists_encodes {list : PostingList} (hvalidate : list.validate builder.numDocs = .ok ())
    (hnumDocs : builder.numDocs ≤ 2 ^ 32) (hoccurrences : list.occurrences < 2 ^ 32) :
    ∃ docs freqs, builder.Encodes (list.addition config) docs freqs := by
  obtain ⟨-, hcheck⟩ := check_bind_eq_ok.mp (checkList_of_lt hvalidate hnumDocs hoccurrences)
  obtain ⟨hne, hlength, hincreasing, hbelow, hpositive⟩ := PostingList.validate_eq_ok.mp hvalidate
  obtain ⟨-, -, -, -, -, huniv⟩ := check_eq_ok.mp hcheck
  have hfreqsNe : list.freqs ≠ [] :=
    List.ne_nil_of_length_pos (hlength ▸ List.length_pos_iff.mpr hne)
  have hsum : list.freqs.sum < ListHeader.sumsUniv list.occurrences := by
    rw [ListHeader.sumsUniv_of_lt (by omega)]
    exact Nat.lt_succ_self _
  obtain ⟨docs, hdocsRegion⟩ := exists_docsRegion hdocs hparams hconfig
    ⟨list.occurrences, list.size⟩ ⟨hne, hincreasing, hbelow, hnumDocs⟩
  obtain ⟨freqs, hfreqsRegion⟩ := (@exists_freqsRegion_iff scheme builder _ hfreqs hparams config
    hconfig ⟨list.occurrences, list.size⟩ huniv list.freqs hfreqsNe).mpr ⟨hpositive, hsum⟩
  exact ⟨docs, freqs, hcheck, hdocsRegion, hfreqsRegion⟩

/-- **A list of 32-bit frequencies is refused by its checks or not at all**, and a builder that
it was added to differs at most in what was added. -/
theorem runFrom_addList {list : PostingList} (hsmall : ∀ freq ∈ list.freqs, freq < 2 ^ 32) :
    (Attempt.runFrom (addList list config) builder).1 = builder.checkList list ∧
      Alike builder (Attempt.runFrom (addList list config) builder).2 := by
  cases hvalidate : list.validate builder.numDocs with
  | error e =>
      rw [addList, Attempt.runFrom_bind, Attempt.runFrom_get, checkList, hvalidate]
      simp only [Attempt.runFrom_bind, Attempt.runFrom_lift, hvalidate]
      exact ⟨rfl, rfl, rfl⟩
  | ok =>
      rw [runFrom_addList_of_valid config hvalidate]
      refine ⟨?_, call_alike builder (list.addition config)⟩
      cases hcheck : builder.checkList list with
      | ok =>
          obtain ⟨-, hnumDocs, hoccurrences⟩ := occurrences_lt_of_checkList hsmall hcheck
          obtain ⟨docs, freqs, hencodes⟩ := exists_encodes hdocs hfreqs hparams hconfig hvalidate
            hnumDocs hoccurrences
          exact hencodes.call_ok
      | error e =>
          rw [checkList, hvalidate] at hcheck
          have hcheck : builder.check ⟨list.occurrences, list.size⟩ list.docs list.freqs =
            .error e := hcheck
          rw [call, PostingList.addition, add, Attempt.runFrom_bind, Attempt.runFrom_get]
          simp only [Attempt.runFrom_bind, Attempt.runFrom_lift, hcheck]

/-- A collection is refused by the checks of its lists or not at all. -/
theorem runFrom_addLists {lists : List PostingList}
    (hsmall : ∀ list ∈ lists, ∀ freq ∈ list.freqs, freq < 2 ^ 32) :
    (Attempt.runFrom (lists.forM (addList · config)) builder).1 =
      lists.forM builder.checkList := by
  induction lists generalizing builder with
  | nil => rfl
  | cons list lists ih =>
      obtain ⟨hlist, hlists⟩ := List.forall_mem_cons.mp hsmall
      obtain ⟨hanswer, halike⟩ := runFrom_addList hdocs hfreqs hparams hconfig hlist
      rw [List.forM, List.forM, Attempt.runFrom_bind]
      generalize Attempt.runFrom (addList list config) builder = result at hanswer halike
      obtain ⟨answer, next⟩ := result
      obtain rfl : answer = builder.checkList list := hanswer
      cases hcheck : builder.checkList list with
      | error e => rfl
      | ok =>
          have hrest := @ih next (halike.params_eq ▸ hparams) hlists
          rw [show next.checkList = builder.checkList from
            funext fun list => halike.checkList_eq list] at hrest
          exact hrest

end Shipped

end IndexBuilder

/-! ## Creating an index -/

namespace Index

variable {scheme : Scheme} {numDocs : Nat} {lists : List PostingList} {params : Params}
  {config : BuildConfig} {index : Index scheme} {stats : IndexStats}

/-- An index is created when the parameters and settings make sense and every list is added,
and it is what the builder comes to. -/
theorem create_eq_ok {created : Index scheme × IndexStats} :
    create scheme numDocs lists params config = .ok created ↔
      params.validate = .ok () ∧ config.validate = .ok () ∧ ∃ builder,
        Attempt.runFrom (lists.forM (IndexBuilder.addList · config))
          ({ params, numDocs } : IndexBuilder scheme) = (.ok (), builder) ∧
        created = (builder.build, builder.stats) := by
  rw [create, check_bind_eq_ok, check_bind_eq_ok]
  refine and_congr_right fun _ => and_congr_right fun _ => ?_
  cases hrun : Attempt.runFrom (lists.forM (IndexBuilder.addList · config))
      ({ params, numDocs } : IndexBuilder scheme) with
  | mk answer builder =>
      simp only [hrun]
      cases answer with
      | error e =>
          constructor
          · intro h
            cases h
          · rintro ⟨_, h, -⟩
            cases h
      | ok =>
          constructor
          · intro h
            exact ⟨builder, rfl, (Except.ok.inj h).symm⟩
          · rintro ⟨_, h, rfl⟩
            cases h
            rfl

/-- What is created is what a builder comes to by calls that are all accepted. -/
theorem of_create (h : create scheme numDocs lists params config = .ok (index, stats)) :
    params.validate = .ok () ∧ config.validate = .ok () ∧
    (∀ list ∈ lists, list.validate numDocs = .ok () ∧ ∃ docs freqs,
      ({ params, numDocs } : IndexBuilder scheme).Encodes (list.addition config) docs freqs) ∧
    ∃ (builder : IndexBuilder scheme) (parts : List (BitString × BitString)),
      index = builder.build ∧ stats = builder.stats ∧ builder.numDocs = numDocs ∧
      builder.Holds (lists.map (·.addition config)) parts := by
  obtain ⟨hparams, hconfig, builder, hrun, hcreated⟩ := create_eq_ok.mp h
  obtain ⟨rfl, rfl⟩ := Prod.mk.inj hcreated
  obtain ⟨hlists, hafter⟩ := IndexBuilder.of_addLists hrun
  have hencodes : ∀ a ∈ lists.map (·.addition config), ∃ docs freqs,
      ({ params, numDocs } : IndexBuilder scheme).Encodes a docs freqs := by
    intro a ha
    obtain ⟨list, hlist, rfl⟩ := List.mem_map.mp ha
    exact (hlists list hlist).2
  have haccepted := IndexBuilder.accepted_of_encodes hencodes
  obtain ⟨parts, hholds⟩ := (IndexBuilder.fresh_holds params numDocs).afterCalls fun a ha => by
    obtain ⟨docs, freqs, hencoded⟩ := hencodes a ha
    exact hencoded.not_tears
  have halike := IndexBuilder.afterCalls_alike ({ params, numDocs } : IndexBuilder scheme)
    (lists.map (·.addition config))
  rw [hafter] at hholds halike
  rw [haccepted] at hholds
  exact ⟨hparams, hconfig, hlists, builder, parts, rfl, rfl, halike.numDocs_eq, hholds⟩

/-- What is asked before an index is created: the parameters and settings make sense, and every
list passes its checks. -/
def checkCollection (scheme : Scheme) (numDocs : Nat) (lists : List PostingList)
    (params : Params) (config : BuildConfig) : Except Error Unit := do
  params.validate
  config.validate
  lists.forM ({ params, numDocs } : IndexBuilder scheme).checkList

section Shipped

variable {docsRate freqsRate : Nat} (hdocs : Shipped scheme.docs docsRate)
  (hfreqs : Shipped scheme.freqs freqsRate)

include hdocs hfreqs

/-- **Creating an index of 32-bit frequencies comes to checking the collection.** -/
theorem map_create (hsmall : ∀ list ∈ lists, ∀ freq ∈ list.freqs, freq < 2 ^ 32) :
    (create scheme numDocs lists params config).map (fun _ => ()) =
      checkCollection scheme numDocs lists params config := by
  rw [create, checkCollection]
  cases hparams : params.validate with
  | error e => rfl
  | ok =>
      cases hconfig : config.validate with
      | error e => rfl
      | ok =>
          have hanswer := @IndexBuilder.runFrom_addLists scheme { params, numDocs } _ _ config
            hdocs hfreqs hparams hconfig lists hsmall
          cases hrun : Attempt.runFrom (lists.forM (IndexBuilder.addList · config))
              ({ params, numDocs } : IndexBuilder scheme) with
          | mk answer builder =>
              rw [hrun] at hanswer
              simp only [hrun, ← hanswer]
              cases answer with
              | error e => rfl
              | ok => rfl

/-- A collection that is refused is refused by its checks. -/
theorem create_eq_error_iff (hsmall : ∀ list ∈ lists, ∀ freq ∈ list.freqs, freq < 2 ^ 32)
    {e : Error} :
    create scheme numDocs lists params config = .error e ↔
      checkCollection scheme numDocs lists params config = .error e := by
  rw [← map_create hdocs hfreqs hsmall]
  cases create scheme numDocs lists params config with
  | error e' =>
      constructor
      · intro h
        rw [Except.error.inj h]
        rfl
      · intro h
        rw [Except.error.inj h]
  | ok created =>
      constructor
      · intro h
        cases h
      · intro h
        cases h

/-- Which collections there is an index of. -/
theorem exists_create_iff :
    (∃ created, create scheme numDocs lists params config = .ok created) ↔
      params.validate = .ok () ∧ config.validate = .ok () ∧
        ∀ list ∈ lists, list.validate numDocs = .ok () ∧ numDocs ≤ 2 ^ 32 ∧
          list.occurrences < 2 ^ 32 := by
  constructor
  · rintro ⟨created, h⟩
    obtain ⟨hparams, hconfig, builder, hrun, -⟩ := create_eq_ok.mp h
    obtain ⟨hlists, -⟩ := IndexBuilder.of_addLists hrun
    refine ⟨hparams, hconfig, fun list hlist => ?_⟩
    obtain ⟨hvalidate, docs, freqs, hencodes⟩ := hlists list hlist
    obtain ⟨-, -, -, -, hnumDocs, -⟩ := IndexBuilder.check_eq_ok.mp hencodes.check_eq
    exact ⟨hvalidate, hnumDocs, IndexBuilder.occurrences_lt_of_encodes hfreqs hencodes⟩
  · rintro ⟨hparams, hconfig, hlists⟩
    obtain ⟨builder, hrun⟩ := @IndexBuilder.exists_addLists scheme lists config
      { params, numDocs } fun list hlist => by
        obtain ⟨hvalidate, hnumDocs, hoccurrences⟩ := hlists list hlist
        exact ⟨hvalidate, IndexBuilder.exists_encodes hdocs hfreqs hparams hconfig hvalidate
          hnumDocs hoccurrences⟩
    exact ⟨_, create_eq_ok.mpr ⟨hparams, hconfig, builder, hrun, rfl⟩⟩

end Shipped

/-- **An index reads as its collection.** -/
theorem created_reads {docsRate freqsRate : Nat} (hdocs : Shipped scheme.docs docsRate)
    (hfreqs : Shipped scheme.freqs freqsRate) (numDocs : Nat) (lists : List PostingList)
    (params : Params) (config : BuildConfig) :
    -- Which collections are accepted.
    ((∃ created, create scheme numDocs lists params config = .ok created) ↔
      params.validate = .ok () ∧ config.validate = .ok () ∧
        ∀ list ∈ lists, list.validate numDocs = .ok () ∧ numDocs ≤ 2 ^ 32 ∧
          list.occurrences < 2 ^ 32) ∧
    ∀ index stats, create scheme numDocs lists params config = .ok (index, stats) →
      index.size = lists.length ∧
      ∀ term list, lists[term]? = some list →
        -- What a bound finds is the first docid that is not below it.
        (∀ bound, ((Plain.mk list.docs numDocs 0).nextGeq bound).value =
          (list.docs.find? (bound ≤ ·)).getD numDocs) ∧
        ∃ c, index.get term = .ok c ∧ c.size = list.docs.length ∧
          c.occurrences = list.freqs.sum ∧
          c.Reads ⟨list.docs, numDocs, 0⟩ list.freqs list.freqs.sum := by
  refine ⟨exists_create_iff hdocs hfreqs, fun index stats h => ?_⟩
  obtain ⟨-, -, hlists, builder, parts, rfl, -, rfl, hholds⟩ := of_create h
  refine ⟨?_, fun term list hlist => ⟨fun bound => ?_, ?_⟩⟩
  · have hsize := hholds.docs.size_eq
    rw [List.length_map, ← hholds.encodes.length_eq, List.length_map] at hsize
    exact hsize
  · obtain ⟨-, -, hincreasing, -, -⟩ := PostingList.validate_eq_ok.mp
      (hlists list (List.mem_of_getElem? hlist)).1
    exact @Plain.nextGeq_value ⟨list.docs, _, 0⟩ (pairwise_le_of_lt hincreasing) bound
  · have hterm : (lists.map (·.addition config))[term]? = some (list.addition config) := by
      rw [List.getElem?_map, hlist]
      rfl
    obtain ⟨_, _, _, hencodes⟩ := hlists list (List.mem_of_getElem? hlist)
    have hlt : list.occurrences < 2 ^ 64 :=
      Nat.lt_trans (IndexBuilder.occurrences_lt_of_encodes hfreqs hencodes) (by decide)
    obtain ⟨c, hc, hreads⟩ := hholds.exists_get hdocs hfreqs hterm hlt
    obtain ⟨_, hrun, hshows⟩ := hreads [] trivial
    obtain rfl := Except.ok.inj hrun
    exact ⟨c, hc, hshows.size_eq, hshows.occurrences_eq, hreads⟩

theorem created_reads_of_two :
    let scheme : Scheme := ⟨Partitioned.planned .vbyte, GapBlocks.format .vbyte⟩
    let lists : List PostingList := [⟨[7], [1]⟩, ⟨[0, 3, 8], [1, 5, 2]⟩]
    Shipped scheme.docs 1007 ∧ Shipped scheme.freqs 79 ∧
    ∃ index stats, create scheme 10 lists {} {} = .ok (index, stats) ∧ index.size = 2 ∧
      ∃ c, index.get 1 = .ok c ∧ c.size = 3 ∧ c.occurrences = 8 ∧
        c.Reads ⟨[0, 3, 8], 10, 0⟩ [1, 5, 2] 8 := by
  intro scheme lists
  have hdocs : Shipped scheme.docs 1007 := .planned .vbyte
  have hfreqs : Shipped scheme.freqs 79 := .gapBlocks .vbyte
  obtain ⟨hiff, hreads⟩ := created_reads hdocs hfreqs 10 lists {} {}
  obtain ⟨⟨index, stats⟩, hcreate⟩ := hiff.mpr
    ⟨by decide +kernel, by decide +kernel, by decide⟩
  obtain ⟨hsize, hterms⟩ := hreads index stats hcreate
  obtain ⟨-, hget⟩ := hterms 1 ⟨[0, 3, 8], [1, 5, 2]⟩ rfl
  exact ⟨hdocs, hfreqs, index, stats, hcreate, hsize, hget⟩

end Index
end Postings
