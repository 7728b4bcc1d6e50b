import Postings.Proofs.Index.Opened

/-!
# What refused lists leave behind

A builder goes on after it refused a list, so what a refusal leaves behind is part of
every later term.  The two regions of a list are committed one after the other.  A call
*tears* when its docids are encoded and its frequencies are refused: the docs region is
there, and no frequency region is.  From then on the regions of later lists are paired
wrongly.  Frequencies are refused when one is zero and when they exceed the occurrences;
and when the occurrences are the greatest 64-bit number, as no universe is past it.

Nothing else goes wrong.  A refused call that does not tear leaves the builder as it was,
and calls of which none tears build the index of those that were accepted, which reads
as it was given.
-/

namespace Postings
namespace IndexBuilder

variable {scheme : Scheme} {builder after : IndexBuilder scheme} {a : Addition}
  {calls : List Addition}

/-! ## Calls -/

/-- A call: what it answers, and the builder that it leaves. -/
def call (builder : IndexBuilder scheme) (a : Addition) : Except Error Unit × IndexBuilder scheme :=
  (add a.header a.docs a.freqs a.config).runFrom builder

/-- The builder after some calls in a row, which go on after refusals. -/
def afterCalls (builder : IndexBuilder scheme) : List Addition → IndexBuilder scheme
  | [] => builder
  | a :: calls => afterCalls (builder.call a).2 calls

/-- Those of some calls in a row that are accepted. -/
def accepted (builder : IndexBuilder scheme) : List Addition → List Addition
  | [] => []
  | a :: calls =>
      match builder.call a with
      | (.ok (), after) => a :: accepted after calls
      | (.error _, after) => accepted after calls

/-- The docids of a list are encoded, and its frequencies are refused. -/
structure Tears (builder : IndexBuilder scheme) (a : Addition) : Prop where
  check_eq : builder.check a.header a.docs a.freqs = .ok ()
  docs_ok : ∃ docs, builder.docsRegion a.header a.docs a.config = .ok docs
  freqs_error : ∃ e, builder.freqsRegion a.header a.freqs a.config = .error e

/-- What a call answers and leaves. -/
inductive Outcome (builder : IndexBuilder scheme) (a : Addition) :
    Except Error Unit × IndexBuilder scheme → Prop where
  | refused (e : Error) (whole : ¬ builder.Tears a)
      (unencoded : ∀ docs freqs, ¬ builder.Encodes a docs freqs) :
      Outcome builder a (.error e, builder)
  | torn (e : Error) (docs : BitString) (tears : builder.Tears a) :
      Outcome builder a (.error e, { builder with docs := builder.docs.push docs })
  | encoded (docs freqs : BitString) (encodes : builder.Encodes a docs freqs) :
      Outcome builder a (.ok (), { builder with
        docs := builder.docs.push docs
        freqs := builder.freqs.push freqs
        postings := builder.postings + a.header.size })

theorem call_outcome (builder : IndexBuilder scheme) (a : Addition) :
    Outcome builder a (builder.call a) := by
  rw [call, add, Attempt.runFrom_bind, Attempt.runFrom_get]
  simp only [Attempt.runFrom_bind, Attempt.runFrom_lift, Attempt.runFrom_modify]
  cases hcheck : builder.check a.header a.docs a.freqs with
  | error e =>
      refine .refused e (fun htears => ?_) fun docs freqs hencodes => ?_
      · rw [htears.check_eq] at hcheck
        cases hcheck
      · rw [hencodes.check_eq] at hcheck
        cases hcheck
  | ok =>
      cases hdocs : builder.docsRegion a.header a.docs a.config with
      | error e =>
          refine .refused e (fun htears => ?_) fun docs freqs hencodes => ?_
          · obtain ⟨docs, hok⟩ := htears.docs_ok
            rw [hok] at hdocs
            cases hdocs
          · rw [hencodes.docs_eq] at hdocs
            cases hdocs
      | ok docs =>
          cases hfreqs : builder.freqsRegion a.header a.freqs a.config with
          | error e => exact .torn e docs ⟨hcheck, ⟨docs, hdocs⟩, ⟨e, hfreqs⟩⟩
          | ok freqs => exact .encoded docs freqs ⟨hcheck, hdocs, hfreqs⟩

theorem Encodes.not_tears {docs freqs : BitString} (h : builder.Encodes a docs freqs) :
    ¬ builder.Tears a := by
  intro htears
  obtain ⟨e, hfreqs⟩ := htears.freqs_error
  rw [h.freqs_eq] at hfreqs
  cases hfreqs

theorem push_ne (r : Regions) (region : BitString) : r.push region ≠ r := by
  intro h
  have hsize := r.size_push region
  rw [h] at hsize
  exact absurd hsize.symm (Nat.succ_ne_self r.size)

theorem Encodes.call_ok {docs freqs : BitString} (h : builder.Encodes a docs freqs) :
    (builder.call a).1 = .ok () := by
  have houtcome := call_outcome builder a
  generalize builder.call a = result at houtcome
  cases houtcome with
  | refused _ _ unencoded => exact absurd h (unencoded docs freqs)
  | torn _ _ tears => exact absurd tears h.not_tears
  | encoded => rfl

theorem encodes_of_call_ok (h : (builder.call a).1 = .ok ()) :
    ∃ docs freqs, builder.Encodes a docs freqs := by
  have houtcome := call_outcome builder a
  generalize builder.call a = result at h houtcome
  cases houtcome with
  | refused => cases h
  | torn => cases h
  | encoded docs freqs encodes => exact ⟨docs, freqs, encodes⟩

/-- **A refused call leaves the builder as it was, unless it tears.** -/
theorem refused_eq_iff {e : Error} (h : (builder.call a).1 = .error e) :
    (builder.call a).2 = builder ↔ ¬ builder.Tears a := by
  have houtcome := call_outcome builder a
  generalize builder.call a = result at h houtcome
  cases houtcome with
  | refused _ whole _ => exact ⟨fun _ => whole, fun _ => rfl⟩
  | torn _ docs tears =>
      exact ⟨fun heq => absurd (congrArg IndexBuilder.docs heq) (push_ne _ _),
        fun hwhole => absurd tears hwhole⟩
  | encoded => cases h

/-! ## Builders of one collection -/

/-- Two builders differ at most in what was added. -/
structure Alike (builder after : IndexBuilder scheme) : Prop where
  params_eq : after.params = builder.params
  numDocs_eq : after.numDocs = builder.numDocs

theorem call_alike (builder : IndexBuilder scheme) (a : Addition) :
    Alike builder (builder.call a).2 := by
  have houtcome := call_outcome builder a
  generalize builder.call a = result at houtcome
  cases houtcome <;> exact ⟨rfl, rfl⟩

namespace Alike

theorem trans {last : IndexBuilder scheme} (h : Alike builder after) (h' : Alike after last) :
    Alike builder last :=
  ⟨h'.params_eq.trans h.params_eq, h'.numDocs_eq.trans h.numDocs_eq⟩

theorem check_eq (h : Alike builder after) (header : ListHeader) (docs freqs : List Nat) :
    after.check header docs freqs = builder.check header docs freqs := by
  rw [check, check, h.numDocs_eq]

theorem docsRegion_eq (h : Alike builder after) (header : ListHeader) (docs : List Nat)
    (config : BuildConfig) :
    after.docsRegion header docs config = builder.docsRegion header docs config := by
  rw [docsRegion, docsRegion, h.params_eq, h.numDocs_eq]

theorem freqsRegion_eq (h : Alike builder after) (header : ListHeader) (freqs : List Nat)
    (config : BuildConfig) :
    after.freqsRegion header freqs config = builder.freqsRegion header freqs config := by
  rw [freqsRegion, freqsRegion, h.params_eq]

theorem symm (h : Alike builder after) : Alike after builder :=
  ⟨h.params_eq.symm, h.numDocs_eq.symm⟩

theorem encodes (h : Alike builder after) {docs freqs : BitString}
    (hencodes : builder.Encodes a docs freqs) : after.Encodes a docs freqs :=
  ⟨(h.check_eq ..).trans hencodes.check_eq, (h.docsRegion_eq ..).trans hencodes.docs_eq,
    (h.freqsRegion_eq ..).trans hencodes.freqs_eq⟩

theorem tears (h : Alike builder after) (htears : builder.Tears a) : after.Tears a := by
  obtain ⟨hcheck, ⟨docs, hdocs⟩, e, hfreqs⟩ := htears
  exact ⟨(h.check_eq ..).trans hcheck, ⟨docs, (h.docsRegion_eq ..).trans hdocs⟩, e,
    (h.freqsRegion_eq ..).trans hfreqs⟩

end Alike

theorem afterCalls_alike (builder : IndexBuilder scheme) (calls : List Addition) :
    Alike builder (builder.afterCalls calls) := by
  induction calls generalizing builder with
  | nil => exact ⟨rfl, rfl⟩
  | cons a calls ih => exact (call_alike builder a).trans (ih _)

/-! ## Runs of calls -/

theorem accepted_cons_of_ok (h : (builder.call a).1 = .ok ()) :
    builder.accepted (a :: calls) = a :: (builder.call a).2.accepted calls := by
  rw [accepted]
  cases hcall : builder.call a with
  | mk answer after =>
      rw [hcall] at h
      cases h
      rfl

theorem accepted_cons_of_error {e : Error} (h : (builder.call a).1 = .error e) :
    builder.accepted (a :: calls) = (builder.call a).2.accepted calls := by
  rw [accepted]
  cases hcall : builder.call a with
  | mk answer after =>
      rw [hcall] at h
      cases h
      rfl

/-- Accepted calls have both their regions, whatever was called before them. -/
theorem encodes_of_mem_accepted (h : a ∈ builder.accepted calls) :
    ∃ docs freqs, builder.Encodes a docs freqs := by
  induction calls generalizing builder with
  | nil => cases h
  | cons b calls ih =>
      have halike := (call_alike builder b).symm
      have houtcome := call_outcome builder b
      rw [accepted] at h
      generalize builder.call b = result at h houtcome halike
      cases houtcome with
      | refused => exact ih h
      | torn =>
          obtain ⟨docs, freqs, hencodes⟩ := ih h
          exact ⟨docs, freqs, halike.encodes hencodes⟩
      | encoded docs freqs encodes =>
          rcases List.mem_cons.mp h with rfl | hmem
          · exact ⟨docs, freqs, encodes⟩
          · obtain ⟨docs, freqs, hencodes⟩ := ih hmem
            exact ⟨docs, freqs, halike.encodes hencodes⟩

theorem not_tears_of_mem_accepted (h : a ∈ builder.accepted calls) : ¬ builder.Tears a := by
  obtain ⟨docs, freqs, hencodes⟩ := encodes_of_mem_accepted h
  exact hencodes.not_tears

/-- Calls that have both their regions are all accepted. -/
theorem accepted_of_encodes (h : ∀ a ∈ calls, ∃ docs freqs, builder.Encodes a docs freqs) :
    builder.accepted calls = calls := by
  induction calls generalizing builder with
  | nil => rfl
  | cons b calls ih =>
      obtain ⟨⟨docs, freqs, hencodes⟩, hcalls⟩ := List.forall_mem_cons.mp h
      rw [accepted_cons_of_ok hencodes.call_ok]
      refine congrArg (b :: ·) (ih fun a ha => ?_)
      obtain ⟨docs, freqs, hlater⟩ := hcalls a ha
      exact ⟨docs, freqs, (call_alike builder b).encodes hlater⟩

theorem accepted_accepted (builder : IndexBuilder scheme) (calls : List Addition) :
    builder.accepted (builder.accepted calls) = builder.accepted calls :=
  accepted_of_encodes fun _ ha => encodes_of_mem_accepted ha

/-- Refused calls that do not tear might as well not have been made. -/
theorem afterCalls_accepted (h : ∀ a ∈ calls, ¬ builder.Tears a) :
    builder.afterCalls (builder.accepted calls) = builder.afterCalls calls := by
  induction calls generalizing builder with
  | nil => rfl
  | cons b calls ih =>
      obtain ⟨hb, hcalls⟩ := List.forall_mem_cons.mp h
      have halike := (call_alike builder b).symm
      have houtcome := call_outcome builder b
      rw [accepted, afterCalls]
      cases hcall : builder.call b with
      | mk answer after =>
          rw [hcall] at houtcome halike
          cases houtcome with
          | refused => exact ih hcalls
          | torn _ _ tears => exact absurd tears hb
          | encoded =>
              change (builder.call b).2.afterCalls _ = _
              rw [hcall]
              exact ih fun a ha htears => hcalls a ha (halike.tears htears)

/-- Every accepted call adds a frequency region and a docs region, and every call that
tears one more docs region. -/
theorem size_afterCalls (builder : IndexBuilder scheme) (calls : List Addition) :
    (builder.afterCalls calls).freqs.size = builder.freqs.size + (builder.accepted calls).length ∧
    builder.docs.size + (builder.accepted calls).length ≤ (builder.afterCalls calls).docs.size ∧
    ((builder.afterCalls calls).docs.size = builder.docs.size + (builder.accepted calls).length ↔
      ∀ a ∈ calls, ¬ builder.Tears a) := by
  induction calls generalizing builder with
  | nil => exact ⟨rfl, Nat.le_refl _, fun _ _ ha => absurd ha List.not_mem_nil, fun _ => rfl⟩
  | cons b calls ih =>
      have halike := call_alike builder b
      have houtcome := call_outcome builder b
      have hlater : (∀ a ∈ calls, ¬ (builder.call b).2.Tears a) ↔
          ∀ a ∈ calls, ¬ builder.Tears a :=
        forall₂_congr fun a _ => not_congr ⟨halike.symm.tears, halike.tears⟩
      have hih := ih (builder.call b).2
      rw [hlater] at hih
      rw [accepted, afterCalls, List.forall_mem_cons]
      generalize builder.call b = result at houtcome hih
      cases houtcome with
      | refused _ whole _ =>
          obtain ⟨hfreqs, hdocs, hiff⟩ := hih
          exact ⟨hfreqs, hdocs, hiff.trans (and_iff_right whole).symm⟩
      | torn _ docs tears =>
          obtain ⟨hfreqs, hdocs, -⟩ := hih
          rw [Regions.size_push, Nat.add_right_comm] at hdocs
          have hlt := Nat.lt_of_succ_le hdocs
          exact ⟨hfreqs, Nat.le_of_lt hlt, fun h => absurd h.symm (Nat.ne_of_lt hlt),
            fun h => absurd tears h.1⟩
      | encoded docs freqs encodes =>
          obtain ⟨hfreqs, hdocs, hiff⟩ := hih
          simp only [Regions.size_push] at hfreqs hdocs hiff
          simp only [List.length_cons]
          refine ⟨by omega, by omega, ?_⟩
          rw [and_iff_right encodes.not_tears, ← hiff]
          omega

/-! ## What is accepted -/

/-- Frequencies that were encoded are not zero, and their sum is below the universe. -/
theorem freqs_below {rate : Nat} (hfreqs : Shipped scheme.freqs rate) {header : ListHeader}
    {freqs : List Nat} {config : BuildConfig} {bits : BitString}
    (h : builder.freqsRegion header freqs config = .ok bits) (hne : freqs ≠ []) :
    (∀ x ∈ freqs, 0 < x) ∧ freqs.sum < ListHeader.sumsUniv header.occurrences := by
  obtain ⟨written, hwrite, -⟩ := of_region h
  obtain ⟨sums, hsums, hwrite⟩ := Attempt.of_runFrom_lift_bind hwrite
  obtain ⟨-, hpositive, -⟩ := PrefixSums.sumsOf_spec hsums
  exact ⟨hpositive, hfreqs.below_of_write hwrite _ (PrefixSums.sum_mem_sumsOf hsums hne)⟩

theorem Encodes.sum_lt {rate : Nat} (hfreqs : Shipped scheme.freqs rate) {docs freqs : BitString}
    (h : builder.Encodes a docs freqs) :
    a.freqs.sum < ListHeader.sumsUniv a.header.occurrences := by
  obtain ⟨hpos, -, -, hlength, -⟩ := check_eq_ok.mp h.check_eq
  exact (freqs_below hfreqs h.freqs_eq (List.ne_nil_of_length_pos (hlength ▸ hpos))).2

/-- Ascending docids are accepted. -/
theorem exists_docsRegion {rate : Nat} (hdocs : Shipped scheme.docs rate)
    (hparams : builder.params.validate = .ok ()) {config : BuildConfig}
    (hconfig : config.validate = .ok ()) (header : ListHeader) {docs : List Nat}
    (hvalues : Ascending docs builder.numDocs) :
    ∃ region, builder.docsRegion header docs config = .ok region := by
  obtain ⟨written, hwrite⟩ := (hdocs.faithful hparams hconfig).accepts hvalues header.bits
  refine ⟨written.padTo 8, ?_⟩
  rw [docsRegion, region, hwrite]
  rfl

/-- The frequencies of a list are accepted when none is zero and their sum is below the
universe that the occurrences leave. -/
theorem exists_freqsRegion_iff {rate : Nat} (hfreqs : Shipped scheme.freqs rate)
    (hparams : builder.params.validate = .ok ()) {config : BuildConfig}
    (hconfig : config.validate = .ok ()) {header : ListHeader}
    (huniv : ListHeader.sumsUniv header.occurrences ≤ 2 ^ 32) {freqs : List Nat}
    (hne : freqs ≠ []) :
    (∃ region, builder.freqsRegion header freqs config = .ok region) ↔
      (∀ x ∈ freqs, 0 < x) ∧ freqs.sum < ListHeader.sumsUniv header.occurrences := by
  constructor
  · rintro ⟨bits, hregion⟩
    exact freqs_below hfreqs hregion hne
  · rintro ⟨hpositive, hsum⟩
    obtain ⟨sums, hsums⟩ := PrefixSums.exists_sumsOf hpositive 0 0
    have hvalues : Ascending sums (ListHeader.sumsUniv header.occurrences) :=
      PrefixSums.sumsOf_ascending hsums hne hsum huniv
    obtain ⟨written, hwrite⟩ := (hfreqs.faithful hparams hconfig).accepts hvalues .empty
    refine ⟨written.padTo 8, ?_⟩
    rw [freqsRegion, region, PrefixSums.runFrom_write hsums, hwrite]
    rfl

/-- Otherwise they are refused. -/
theorem exists_freqs_error_iff {rate : Nat} (hfreqs : Shipped scheme.freqs rate)
    (hparams : builder.params.validate = .ok ()) {config : BuildConfig}
    (hconfig : config.validate = .ok ()) {header : ListHeader}
    (huniv : ListHeader.sumsUniv header.occurrences ≤ 2 ^ 32) {freqs : List Nat}
    (hne : freqs ≠ []) :
    (∃ e, builder.freqsRegion header freqs config = .error e) ↔
      0 ∈ freqs ∨ ListHeader.sumsUniv header.occurrences ≤ freqs.sum := by
  have hiff := exists_freqsRegion_iff hfreqs hparams hconfig huniv hne
  constructor
  · rintro ⟨e, herror⟩
    by_cases hzero : 0 ∈ freqs
    · exact .inl hzero
    · refine .inr (Nat.le_of_not_lt fun hlt => ?_)
      obtain ⟨region, hok⟩ := hiff.mpr ⟨fun x hx => Nat.pos_of_ne_zero fun hx' =>
        hzero (hx' ▸ hx), hlt⟩
      rw [hok] at herror
      cases herror
  · intro hbad
    cases hregion : builder.freqsRegion header freqs config with
    | error e => exact ⟨e, rfl⟩
    | ok region =>
        obtain ⟨hpositive, hsum⟩ := hiff.mp ⟨region, hregion⟩
        rcases hbad with hzero | hle
        · exact absurd (hpositive 0 hzero) (Nat.lt_irrefl 0)
        · exact absurd hsum (Nat.not_lt.mpr hle)

/-- **Which calls tear**, where the parameters and settings make sense: the docids are
encoded, and a frequency is zero, or the frequencies exceed the occurrences, or the
occurrences are so many that they leave no universe. -/
theorem tears_iff {rate : Nat} (hfreqs : Shipped scheme.freqs rate)
    (hparams : builder.params.validate = .ok ()) (hconfig : a.config.validate = .ok ())
    (hlt : a.header.occurrences < 2 ^ 64) :
    builder.Tears a ↔
      builder.check a.header a.docs a.freqs = .ok () ∧
      (∃ docs, builder.docsRegion a.header a.docs a.config = .ok docs) ∧
      (0 ∈ a.freqs ∨ a.header.occurrences < a.freqs.sum ∨
        a.header.occurrences = 2 ^ 64 - 1) := by
  rw [← ListHeader.sumsUniv_le_iff hlt]
  have hiff : builder.check a.header a.docs a.freqs = .ok () →
      ((∃ e, builder.freqsRegion a.header a.freqs a.config = .error e) ↔
        0 ∈ a.freqs ∨ ListHeader.sumsUniv a.header.occurrences ≤ a.freqs.sum) := by
    intro hcheck
    obtain ⟨hpos, -, -, hlength, -, huniv⟩ := check_eq_ok.mp hcheck
    exact exists_freqs_error_iff hfreqs hparams hconfig huniv
      (List.ne_nil_of_length_pos (hlength ▸ hpos))
  constructor
  · rintro ⟨hcheck, hdocs, herror⟩
    exact ⟨hcheck, hdocs, (hiff hcheck).mp herror⟩
  · rintro ⟨hcheck, hdocs, hbad⟩
    exact ⟨hcheck, hdocs, (hiff hcheck).mpr hbad⟩

/-! ## What accepted calls leave -/

/-- A builder holds what was accepted, a pair of regions for each list. -/
structure Holds (builder : IndexBuilder scheme) (done : List Addition)
    (parts : List (BitString × BitString)) : Prop where
  docs : builder.docs.Holds (parts.map Prod.fst)
  freqs : builder.freqs.Holds (parts.map Prod.snd)
  encodes : List.Forall₂ (fun a part => builder.Encodes a part.1 part.2) done parts
  postings_eq : builder.postings = (done.map fun a => a.header.size).sum

theorem fresh_holds (params : Params) (numDocs : Nat) :
    ({ params, numDocs } : IndexBuilder scheme).Holds [] [] where
  docs := Regions.empty_holds
  freqs := Regions.empty_holds
  encodes := .nil
  postings_eq := rfl

namespace Holds

variable {done : List Addition} {parts : List (BitString × BitString)}

/-- One more list, with both its regions. -/
theorem push (h : builder.Holds done parts) {docs freqs : BitString}
    (hencodes : builder.Encodes a docs freqs) :
    ({ builder with
        docs := builder.docs.push docs
        freqs := builder.freqs.push freqs
        postings := builder.postings + a.header.size } : IndexBuilder scheme).Holds
      (done ++ [a]) (parts ++ [(docs, freqs)]) where
  docs := by
    rw [List.map_append]
    exact h.docs.push (size_region hencodes.docs_eq)
  freqs := by
    rw [List.map_append]
    exact h.freqs.push (size_region hencodes.freqs_eq)
  encodes := by
    have halike : Alike builder { builder with
        docs := builder.docs.push docs
        freqs := builder.freqs.push freqs
        postings := builder.postings + a.header.size } := ⟨rfl, rfl⟩
    exact List.rel_append (h.encodes.imp fun _ _ => halike.encodes)
      (.cons (halike.encodes hencodes) .nil)
  postings_eq := by
    rw [List.map_append, List.sum_append, ← h.postings_eq]
    rfl

/-- Calls of which none tears leave what was there, and add what they accept. -/
theorem afterCalls (h : builder.Holds done parts) (hwhole : ∀ a ∈ calls, ¬ builder.Tears a) :
    ∃ parts, (builder.afterCalls calls).Holds (done ++ builder.accepted calls) parts := by
  induction calls generalizing builder done parts with
  | nil => exact ⟨parts, by rwa [accepted, List.append_nil]⟩
  | cons b calls ih =>
      obtain ⟨hb, hcalls⟩ := List.forall_mem_cons.mp hwhole
      have halike := (call_alike builder b).symm
      have houtcome := call_outcome builder b
      rw [accepted, IndexBuilder.afterCalls]
      generalize builder.call b = result at houtcome halike
      cases houtcome with
      | refused => exact ih h hcalls
      | torn _ _ tears => exact absurd tears hb
      | encoded docs freqs encodes =>
          obtain ⟨parts, hparts⟩ := ih (h.push encodes) fun a ha htears =>
            hcalls a ha (halike.tears htears)
          refine ⟨parts, ?_⟩
          rwa [List.append_assoc] at hparts

/-- The index of what was accepted reads as it was given. -/
theorem exists_get (h : builder.Holds done parts) {docsRate freqsRate : Nat}
    (hdocs : Shipped scheme.docs docsRate) (hfreqs : Shipped scheme.freqs freqsRate) {term : Nat}
    (hterm : done[term]? = some a) (hoccurrences : a.header.occurrences < 2 ^ 64) :
    ∃ c, builder.build.get term = .ok c ∧
      c.Reads ⟨a.docs, builder.numDocs, 0⟩ a.freqs a.header.occurrences := by
  obtain ⟨hlt, rfl⟩ := List.getElem?_eq_some_iff.mp hterm
  have hpart : term < parts.length := h.encodes.length_eq ▸ hlt
  have hencodes : builder.Encodes done[term] parts[term].1 parts[term].2 :=
    (List.forall₂_iff_get.mp h.encodes).2 term hlt hpart
  have huniv := ListHeader.sumsUniv_eq_of_pos hoccurrences
    (Nat.zero_lt_of_lt (hencodes.sum_lt hfreqs))
  refine @Index.exists_get scheme builder.build _ _ _ _ _ _ builder rfl rfl h.docs h.freqs ?_ ?_
    (hencodes.valid huniv) hencodes (hdocs.sound _ _) (hfreqs.sound _ _)
  · rw [List.getElem?_map, List.getElem?_eq_getElem hpart]
    rfl
  · rw [List.getElem?_map, List.getElem?_eq_getElem hpart]
    rfl

end Holds

/-! ## Atomicity -/

/-- **Refused calls vanish exactly where no call tears.**  Numbers of occurrences are 64-bit
numbers. -/
theorem refused_calls_vanish_iff {docsRate freqsRate : Nat} (hdocs : Shipped scheme.docs docsRate)
    (hfreqs : Shipped scheme.freqs freqsRate) (params : Params) (numDocs : Nat) :
    let start : IndexBuilder scheme := { params, numDocs }
    -- What one refused call leaves, in any state.
    (∀ (builder : IndexBuilder scheme) a e, (builder.call a).1 = .error e →
      ((builder.call a).2 = builder ↔ ¬ builder.Tears a)) ∧
    -- Which calls tear, in words of what they were given.
    (∀ a, params.validate = .ok () → a.config.validate = .ok () →
      a.header.occurrences < 2 ^ 64 →
      (start.Tears a ↔
        start.check a.header a.docs a.freqs = .ok () ∧
        (∃ docs, start.docsRegion a.header a.docs a.config = .ok docs) ∧
        (0 ∈ a.freqs ∨ a.header.occurrences < a.freqs.sum ∨
          a.header.occurrences = 2 ^ 64 - 1))) ∧
    -- What any run of calls leaves.
    ∀ calls,
      ((start.afterCalls calls).docs.size = (start.afterCalls calls).freqs.size ↔
        ∀ a ∈ calls, ¬ start.Tears a) ∧
      ((start.afterCalls calls).build = (start.afterCalls (start.accepted calls)).build ↔
        ∀ a ∈ calls, ¬ start.Tears a) ∧
      ((∀ a ∈ calls, ¬ start.Tears a) →
        start.afterCalls calls = start.afterCalls (start.accepted calls) ∧
        (start.afterCalls calls).postings =
          ((start.accepted calls).map fun a => a.header.size).sum ∧
        (start.afterCalls calls).build.size = (start.accepted calls).length ∧
        ∀ term a, (start.accepted calls)[term]? = some a → a.header.occurrences < 2 ^ 64 →
          ∃ c, (start.afterCalls calls).build.get term = .ok c ∧
            c.Reads ⟨a.docs, numDocs, 0⟩ a.freqs a.header.occurrences) := by
  intro start
  refine ⟨fun builder a e herror => refused_eq_iff herror,
    fun a hparams hconfig hlt => tears_iff hfreqs hparams hconfig hlt, fun calls => ?_⟩
  obtain ⟨hfreqsSize, -, hdocsSize⟩ := size_afterCalls start calls
  have hnone : start.docs.size + (start.accepted calls).length = (start.accepted calls).length :=
    Nat.zero_add _
  have hsame : start.docs.size + (start.accepted calls).length =
      (start.afterCalls calls).freqs.size := hfreqsSize.symm
  refine ⟨hsame ▸ hdocsSize, ⟨fun hbuild => ?_, fun hwhole => ?_⟩, fun hwhole => ?_⟩
  · -- On their own, the accepted calls leave one docs region each.
    obtain ⟨-, -, halone⟩ := size_afterCalls start (start.accepted calls)
    rw [accepted_accepted] at halone
    have hsize := halone.mpr fun a ha => not_tears_of_mem_accepted ha
    exact hdocsSize.mp ((congrArg Index.size hbuild).trans hsize)
  · rw [afterCalls_accepted hwhole]
  · obtain ⟨parts, hholds⟩ := (fresh_holds params numDocs).afterCalls hwhole
    refine ⟨(afterCalls_accepted hwhole).symm, hholds.postings_eq,
      (hdocsSize.mpr hwhole).trans hnone, fun term a hterm hlt => ?_⟩
    obtain ⟨c, hc, hreads⟩ := hholds.exists_get hdocs hfreqs hterm hlt
    rw [(afterCalls_alike _ calls).numDocs_eq] at hreads
    exact ⟨c, hc, hreads⟩

/-- Docids out of order are refused without a trace.  So many occurrences that no universe is
left for the sums are not: the docids are encoded by then. -/
theorem refused_calls_vanish_of_two :
    let scheme : Scheme :=
      ⟨Partitioned.planned .vbyte, Partitioned.uniform (Adaptive.format .vbyte) EliasFano.format⟩
    let start : IndexBuilder scheme := { params := {}, numDocs := 10 }
    let refused : Addition := ⟨⟨2, 2⟩, [7, 1], [1, 1], {}⟩
    let whole : Addition := ⟨⟨5, 2⟩, [3, 4], [2, 3], {}⟩
    let endless : Addition := ⟨⟨2 ^ 64 - 1, 1⟩, [3], [1], {}⟩
    Shipped scheme.docs 1007 ∧ Shipped scheme.freqs 1007 ∧
    (∃ e, (start.call refused).1 = .error e) ∧ (start.call refused).2 = start ∧
    start.Tears endless ∧
    ∃ c, (start.afterCalls [refused, whole]).build.get 0 = .ok c ∧
      c.Reads ⟨[3, 4], 10, 0⟩ [2, 3] 5 := by
  intro scheme start refused whole endless
  have hdocs : Shipped scheme.docs 1007 := .planned .vbyte
  have hfreqs : Shipped scheme.freqs 1007 := .uniform (.adaptive .vbyte) (by decide) (.inl rfl)
  obtain ⟨hcall, htears, hruns⟩ := refused_calls_vanish_iff hdocs hfreqs {} 10
  have hrefused : (start.call refused).1 = .error
      (.invalidArgument "values" "not strictly increasing at position 1: 7 then 1") := rfl
  have haccepted : start.accepted [refused, whole] = [whole] := by
    rw [accepted_cons_of_error hrefused, accepted_cons_of_ok (by decide +kernel)]
    rfl
  have hwhole : ∀ a ∈ [refused, whole], ¬ start.Tears a := by
    refine List.forall_mem_cons.mpr ⟨?_, List.forall_mem_cons.mpr ⟨?_, List.forall_mem_nil _⟩⟩
    · rw [htears refused (by decide +kernel) (by decide +kernel) (by decide)]
      rintro ⟨-, -, h⟩
      revert h
      decide
    · rw [htears whole (by decide +kernel) (by decide +kernel) (by decide)]
      rintro ⟨-, -, h⟩
      revert h
      decide
  obtain ⟨-, -, hreads⟩ := hruns [refused, whole]
  obtain ⟨-, -, -, hget⟩ := hreads hwhole
  refine ⟨hdocs, hfreqs, ⟨_, hrefused⟩, ?_, ?_,
    hget 0 whole (congrArg (·[0]?) haccepted) (by decide)⟩
  · exact (hcall start refused _ hrefused).mpr (hwhole refused List.mem_cons_self)
  · have hencoded := @exists_docsRegion scheme start 1007 hdocs (by decide +kernel) {}
      (by decide +kernel) endless.header [3] ⟨by decide, by decide, by decide, by decide⟩
    exact (htears endless (by decide +kernel) (by decide +kernel) (by decide)).mpr
      ⟨by decide +kernel, hencoded, .inr (.inr rfl)⟩

/-- A zero among the frequencies tears: the docs region stays, and the term that is
added next cannot be opened. -/
theorem torn_call_shifts_terms :
    let start : IndexBuilder (.uniform EliasFano.format.toFormat) := { params := {}, numDocs := 10 }
    let torn : Addition := ⟨⟨2, 2⟩, [1, 7], [0, 2], {}⟩
    let whole : Addition := ⟨⟨5, 2⟩, [3, 4], [2, 3], {}⟩
    (start.call torn).1 = .error (.invalidArgument "values" "value at position 0 is zero") ∧
    (start.call torn).2 ≠ start ∧
    (start.call torn).2.docs.size = 1 ∧ (start.call torn).2.freqs.size = 0 ∧
    start.accepted [torn, whole] = [whole] ∧
    (start.afterCalls [torn, whole]).build ≠ (start.afterCalls [whole]).build ∧
    ((start.afterCalls [torn, whole]).build.get 1).isOk = false := by
  refine ⟨?_, ?_, ?_, ?_, rfl, ?_, ?_⟩ <;> decide +kernel

end IndexBuilder
end Postings
