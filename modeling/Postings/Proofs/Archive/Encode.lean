import Mathlib.Data.List.Forall2
import Postings.Proofs.Archive.Lists
import Postings.Proofs.Archive.Records
import Postings.Proofs.Work.Queue

/-!
# Archives read back

An archive is made by a queue, and what a run of the queue leaves does not depend on how
its jobs are batched.  So an archive is what comes of appending the encoded lists one by
one, in the order of the input, and it can be made exactly if each list can be encoded.

Then its records are found again, one for each list, and each of them decodes to its list.
Positions are stored in 64 bits, so the archive must not be longer than they reach.  An
archive is not longer than a linear function of the universes of its lists.
-/

namespace Postings
namespace Archive

open BitString

variable {codec : Codec} {kind : ListKind} {params : Params} {config : BuildConfig}
  {lists : List (List Nat)} {archive : Archive}

/-! ## Jobs -/

/-- The job of a list, with the work that is expected of it. -/
def jobOf (kind : ListKind) (values : List Nat) : Entry × Nat :=
  (⟨values, kind.univOf values⟩, values.length)

/-- A list becomes a job if it has values and its universe fits its field. -/
theorem entryOf_ok_iff {place : Nat} {values : List Nat} {entry : Entry} :
    entryOf codec kind place values = .ok entry ↔
      (values ≠ [] ∧ kind.univOf values ≤ maxUniv) ∧ entry = (jobOf kind values).1 := by
  cases values with
  | nil =>
      constructor
      · intro h
        cases h
      · rintro ⟨⟨hne, -⟩, -⟩
        exact absurd rfl hne
  | cons v values =>
      have hentry : entryOf codec kind place (v :: values) =
          if maxUniv < kind.univOf (v :: values) then
            .error (.codecOverflow codec.name (kind.univOf (v :: values)))
          else .ok (jobOf kind (v :: values)).1 := by
        rw [entryOf]
        split
        · rename_i hempty
          cases hempty
        · rfl
      rw [hentry]
      split
      · rename_i hlarge
        constructor
        · intro h
          cases h
        · rintro ⟨⟨-, huniv⟩, -⟩
          omega
      · rename_i hfits
        constructor
        · rintro ⟨⟩
          exact ⟨⟨List.cons_ne_nil _ _, Nat.not_lt.mp hfits⟩, rfl⟩
        · rintro ⟨-, rfl⟩
          rfl

/-- Lists are fed to a queue exactly if all of them become jobs and the jobs are added. -/
theorem feed_ok_iff {w : Work Entry Encoded Archive} {place : Nat}
    {queue next : Queue Entry Archive} :
    (feed codec kind w place lists).runFrom queue = (.ok (), next) ↔
      (∀ values ∈ lists, values ≠ [] ∧ kind.univOf values ≤ maxUniv) ∧
        (Queue.addAll w (lists.map (jobOf kind))).runFrom queue = (.ok (), next) := by
  induction lists generalizing place queue with
  | nil => exact ⟨fun h => ⟨fun _ hmem => absurd hmem List.not_mem_nil, h⟩, fun h => h.2⟩
  | cons values lists ih =>
      rw [feed, List.forall_mem_cons, List.map_cons, Queue.addAll, List.forM,
        Attempt.runFrom_lift_bind_ok_iff, Attempt.runFrom_bind_ok_iff]
      constructor
      · rintro ⟨entry, hentry, hrest⟩
        obtain ⟨hvalues, rfl⟩ := entryOf_ok_iff.mp hentry
        obtain ⟨_, added, hadd, hfeed⟩ := Attempt.of_runFrom_bind hrest
        obtain ⟨hlists, hadds⟩ := ih.mp hfeed
        exact ⟨⟨hvalues, hlists⟩, (), added, hadd, hadds⟩
      · rintro ⟨⟨hvalues, hlists⟩, _, added, hadd, hadds⟩
        exact ⟨_, entryOf_ok_iff.mpr ⟨hvalues, rfl⟩,
          Attempt.runFrom_bind_ok_iff.mpr ⟨(), added, hadd, ih.mpr ⟨hlists, hadds⟩⟩⟩

/-- Feeding lists and completing the queue is running their jobs. -/
theorem feedAndComplete_ok_iff {w : Work Entry Encoded Archive} {place : Nat}
    {queue next : Queue Entry Archive} :
    Attempt.runFrom (do feed codec kind w place lists; Queue.complete w) queue = (.ok (), next) ↔
      (∀ values ∈ lists, values ≠ [] ∧ kind.univOf values ≤ maxUniv) ∧
        (Queue.runAll w (lists.map (jobOf kind))).runFrom queue = (.ok (), next) := by
  rw [Queue.runAll, Attempt.runFrom_bind_ok_iff, Attempt.runFrom_bind_ok_iff]
  constructor
  · rintro ⟨_, fed, hfeed, hcomplete⟩
    obtain ⟨hlists, hadd⟩ := feed_ok_iff.mp hfeed
    exact ⟨hlists, (), fed, hadd, hcomplete⟩
  · rintro ⟨hlists, _, added, hadd, hcomplete⟩
    exact ⟨(), added, feed_ok_iff.mpr ⟨hlists, hadd⟩, hcomplete⟩

/-! ## Performing them -/

/-- What comes of preparing the job of a list. -/
structure Encodes (codec : Codec) (kind : ListKind) (params : Params) (config : BuildConfig)
    (values : List Nat) (encoded : Encoded) : Prop where
  entry_eq : encoded.toEntry = (jobOf kind values).1
  write_eq : (kind.write codec values (kind.univOf values) params config).runFrom .empty =
    (.ok (), encoded.payload)

theorem prepare_ok_iff {values : List Nat} {encoded : Encoded} :
    (work codec kind params config).prepare (jobOf kind values).1 = .ok encoded ↔
      Encodes codec kind params config values encoded := by
  simp only [work, jobOf]
  cases hwrite : (kind.write codec values (kind.univOf values) params config).runFrom .empty with
  | mk answer payload =>
      cases answer with
      | error e =>
          constructor
          · intro h
            cases h
          · rintro ⟨-, h⟩
            cases hwrite.symm.trans h
      | ok =>
          constructor
          · rintro ⟨⟩
            exact ⟨rfl, hwrite⟩
          · rintro ⟨hentry, hsame⟩
            cases hwrite.symm.trans hsame
            rw [show (⟨values, kind.univOf values⟩ : Entry) = encoded.toEntry from hentry.symm]

/-- Performing the jobs of lists is encoding them and appending what comes of it. -/
theorem performs_iff {target last : Archive} {outcomes : List Encoded} :
    (work codec kind params config).Performs target ((lists.map (jobOf kind)).map Prod.fst) outcomes
        last ↔
      List.Forall₂ (Encodes codec kind params config) lists outcomes ∧
        last = outcomes.foldl append target := by
  induction lists generalizing target outcomes with
  | nil =>
      constructor
      · rintro ⟨⟩
        exact ⟨.nil, rfl⟩
      · rintro ⟨⟨⟩, rfl⟩
        exact .nil _
  | cons values lists ih =>
      constructor
      · intro h
        cases h with
        | cons prepares commits rest =>
            obtain rfl := congrArg Prod.snd commits
            obtain ⟨hencodes, hlast⟩ := ih.mp rest
            exact ⟨.cons (prepare_ok_iff.mp prepares) hencodes, hlast⟩
      · rintro ⟨hencodes, hlast⟩
        cases hencodes with
        | cons hvalues hrest => exact .cons (prepare_ok_iff.mpr hvalues) rfl (ih.mpr ⟨hrest, hlast⟩)

/-- An archive without lists. -/
def fresh (kind : ListKind) (params : Params) : Archive :=
  { kind, params, bits := .empty, lists := 0, postings := 0 }

/-- An archive is what a run of the queue leaves. -/
theorem encode_eq_ok (hparams : params.validate = .ok ()) (hconfig : config.validate = .ok ()) :
    encode codec kind lists params config = .ok archive ↔
      ∃ queue, Attempt.runFrom
          (do feed codec kind (work codec kind params config) 0 lists
              Queue.complete (work codec kind params config))
          (Queue.start (fresh kind params) config.batchWork config.workers) = (.ok (), queue) ∧
        queue.target = archive := by
  rw [encode, check_bind_eq_ok, and_iff_right hparams, check_bind_eq_ok, and_iff_right hconfig]
  dsimp only
  split
  · rename_i queue hrun
    constructor
    · intro h
      exact ⟨queue, hrun, Except.ok.inj h⟩
    · rintro ⟨_, hsame, rfl⟩
      cases hrun.symm.trans hsame
      rfl
  · rename_i hrun
    constructor
    · intro h
      cases h
    · rintro ⟨_, hsame, -⟩
      cases hrun.symm.trans hsame

/-- **An archive is its encoded lists**, appended one by one. -/
theorem encode_ok_iff (hparams : params.validate = .ok ()) (hconfig : config.validate = .ok ()) :
    encode codec kind lists params config = .ok archive ↔
      (∀ values ∈ lists, values ≠ [] ∧ kind.univOf values ≤ maxUniv) ∧
        ∃ outcomes, List.Forall₂ (Encodes codec kind params config) lists outcomes ∧
          archive = outcomes.foldl append (fresh kind params) := by
  simp only [encode_eq_ok hparams hconfig, feedAndComplete_ok_iff, and_assoc, exists_and_left]
  refine and_congr_right fun _ => ?_
  simp only [Queue.exists_runAll_iff, performs_iff]

/-! ## What an archive holds -/

/-- What comes of appending encoded lists. -/
theorem appendAll_spec {target : Archive} {entries : List Encoded}
    (h : RecordsAt target.bits 0 entries) (outcomes : List Encoded) :
    RecordsAt (outcomes.foldl append target).bits 0 (entries ++ outcomes) ∧
      (outcomes.foldl append target).kind = target.kind ∧
      (outcomes.foldl append target).params = target.params ∧
      (outcomes.foldl append target).lists = target.lists + outcomes.length ∧
      (outcomes.foldl append target).postings =
        target.postings + (outcomes.map (·.values.length)).sum ∧
      (outcomes.foldl append target).bits.size =
        target.bits.size + (outcomes.map (headerBits + ·.payload.size)).sum := by
  induction outcomes generalizing target entries with
  | nil => exact ⟨by rwa [List.append_nil], rfl, rfl, rfl, rfl, rfl⟩
  | cons encoded outcomes ih =>
      obtain ⟨hrecords, hkind, hparams, hlists, hpostings, hsize⟩ :=
        @ih (target.append encoded) _ (h.append encoded)
      rw [List.append_assoc] at hrecords
      refine ⟨hrecords, hkind, hparams, hlists.trans ?_, hpostings.trans ?_, hsize.trans ?_⟩
      · rw [append, List.length_cons, Nat.add_assoc, Nat.add_comm 1]
      · rw [append, List.map_cons, List.sum_cons, Nat.add_assoc]
      · rw [append, size_append, Encoded.size_record, List.map_cons, List.sum_cons, Nat.add_assoc]

/-! ## Encoded lists -/

namespace Encodes

variable {values : List Nat} {encoded : Encoded}

theorem univ_eq (h : Encodes codec kind params config values encoded) :
    encoded.univ = kind.univOf values := congrArg Entry.univ h.entry_eq

theorem values_eq (h : Encodes codec kind params config values encoded) :
    encoded.values = values := congrArg Entry.values h.entry_eq

/-- The fields of an encoded list fit. -/
theorem fits (h : Encodes codec kind params config values encoded)
    (huniv : kind.univOf values ≤ maxUniv) : encoded.Fits := by
  have hlength := ListKind.length_le_of_write h.write_eq
  rw [maxUniv] at huniv
  refine ⟨?_, ?_, ListKind.write_aligned h.write_eq⟩
  · rw [h.univ_eq]
    omega
  · rw [h.values_eq]
    omega

/-- Batches do not change how a list is encoded. -/
theorem batched_iff {workers batchWork : Nat} (hconfig : config.validate = .ok ())
    (hbatch : 0 < batchWork) :
    Encodes codec kind params (config.batched workers batchWork) values encoded ↔
      Encodes codec kind params config values encoded := by
  have hsame := @ListKind.write_batched config workers batchWork kind codec values
    (kind.univOf values) params hconfig hbatch
  constructor
  · rintro ⟨hentry, hwrite⟩
    exact ⟨hentry, hsame ▸ hwrite⟩
  · rintro ⟨hentry, hwrite⟩
    exact ⟨hentry, hsame ▸ hwrite⟩

end Encodes

/-- Lists that become jobs are encoded exactly if they are of the kind. -/
theorem exists_outcomes_iff (hconfig : config.validate = .ok ())
    (hlists : ∀ values ∈ lists, values ≠ [] ∧ kind.univOf values ≤ maxUniv) :
    (∃ outcomes, List.Forall₂ (Encodes codec kind params config) lists outcomes) ↔
      ∀ values ∈ lists, kind.Valid values := by
  induction lists with
  | nil => exact ⟨fun _ _ hmem => absurd hmem List.not_mem_nil, fun _ => ⟨[], .nil⟩⟩
  | cons values lists ih =>
      obtain ⟨⟨hne, huniv⟩, hrest⟩ := List.forall_mem_cons.mp hlists
      have hfits : kind.univOf values ≤ 2 ^ 32 := huniv.trans (by decide)
      have hwrite :=
        @ListKind.exists_write_iff kind codec params config values .empty hconfig hne hfits
      rw [List.forall_mem_cons, ← ih hrest, ← hwrite]
      constructor
      · rintro ⟨_, houtcomes⟩
        cases houtcomes with
        | cons hvalues houtcomes => exact ⟨⟨_, hvalues.write_eq⟩, _, houtcomes⟩
      · rintro ⟨⟨payload, hvalues⟩, outcomes, houtcomes⟩
        exact ⟨⟨(jobOf kind values).1, payload⟩ :: outcomes, .cons ⟨rfl, hvalues⟩ houtcomes⟩

/-- The records of lists take at most linear room in their universes. -/
theorem sum_record_le {outcomes : List Encoded}
    (h : List.Forall₂ (Encodes codec kind params config) lists outcomes) :
    (outcomes.map (headerBits + ·.payload.size)).sum ≤
      (lists.map fun values => headerBits + 1007 * kind.univOf values).sum := by
  induction h with
  | nil => exact Nat.le_refl 0
  | cons hvalues _ ih =>
      have hsize := ListKind.size_le_of_write hvalues.write_eq
      rw [size_empty, Nat.zero_add] at hsize
      rw [List.map_cons, List.map_cons, List.sum_cons, List.sum_cons]
      omega

theorem map_length_eq {outcomes : List Encoded}
    (h : List.Forall₂ (Encodes codec kind params config) lists outcomes) :
    outcomes.map (·.values.length) = lists.map List.length := by
  induction h with
  | nil => rfl
  | cons hvalues _ ih => rw [List.map_cons, List.map_cons, ih, hvalues.values_eq]

theorem forall_fits {outcomes : List Encoded}
    (h : List.Forall₂ (Encodes codec kind params config) lists outcomes)
    (hlists : ∀ values ∈ lists, kind.univOf values ≤ maxUniv) :
    ∀ encoded ∈ outcomes, encoded.Fits := by
  induction h with
  | nil => exact fun _ hmem => absurd hmem List.not_mem_nil
  | cons hvalues _ ih =>
      obtain ⟨huniv, hrest⟩ := List.forall_mem_cons.mp hlists
      exact List.forall_mem_cons.mpr ⟨hvalues.fits huniv, ih hrest⟩

/-! ## Reading back -/

/-- A record of an archive leads back to a list. -/
structure Recalls (archive : Archive) (codec : Codec) (record : ListRecord) (values : List Nat) :
    Prop where
  univ_eq : record.univ = archive.kind.univOf values
  n_eq : record.n = values.length
  decode_eq : archive.decode codec record = .ok values

theorem Locates.recalls {record : ListRecord} {values : List Nat} {encoded : Encoded}
    (h : Locates archive.bits record encoded)
    (hencodes : Encodes codec archive.kind archive.params config values encoded) :
    Recalls archive codec record values := by
  have huniv := h.univ_eq.trans hencodes.univ_eq
  have hn : record.n = values.length := by rw [h.n_eq, hencodes.values_eq]
  have hwrite := hencodes.write_eq
  rw [← huniv] at hwrite
  exact ⟨huniv, hn, Archive.decode_eq hwrite hn h.aligned h.carries⟩

/-- The records of encoded lists lead back to the lists. -/
theorem forall₂_recalls {records : List ListRecord} {outcomes : List Encoded}
    (hlocated : List.Forall₂ (Locates archive.bits) records outcomes)
    (hencodes : List.Forall₂ (Encodes codec archive.kind archive.params config) lists outcomes) :
    List.Forall₂ (Recalls archive codec) records lists := by
  induction hlocated generalizing lists with
  | nil =>
      cases hencodes
      exact .nil
  | cons hrecord _ ih =>
      cases hencodes with
      | cons hvalues hrest => exact .cons (hrecord.recalls hvalues) (ih hrest)

/-- **Encoded lists are read back**, and batches do not change them. -/
theorem encoded_lists_read_back (codec : Codec) (kind : ListKind) (lists : List (List Nat))
    (hparams : params.validate = .ok ()) (hconfig : config.validate = .ok ()) :
    -- Which lists are accepted.
    ((∃ archive, encode codec kind lists params config = .ok archive) ↔
      ∀ values ∈ lists, values ≠ [] ∧ kind.Valid values ∧ kind.univOf values ≤ 2 ^ 32 - 1) ∧
    -- Other batches make the same archive, or none if there is none.
    (∀ workers batchWork, 0 < batchWork → ∀ archive,
      encode codec kind lists params (config.batched workers batchWork) = .ok archive ↔
        encode codec kind lists params config = .ok archive) ∧
    ∀ archive, encode codec kind lists params config = .ok archive →
      archive.kind = kind ∧ archive.params = params ∧ archive.lists = lists.length ∧
      archive.postings = (lists.map List.length).sum ∧
      archive.bits.size ≤ (lists.map fun values => headerBits + 1007 * kind.univOf values).sum ∧
      -- Where a record ends is stored in 64 bits.
      (archive.bits.size < 2 ^ 64 →
        ∃ records, archive.records = .ok records ∧
          List.Forall₂ (Recalls archive codec) records lists) := by
  refine ⟨?_, fun workers batchWork hbatch archive => ?_, fun archive hencode => ?_⟩
  · simp only [encode_ok_iff hparams hconfig]
    constructor
    · rintro ⟨_, hlists, outcomes, houtcomes, -⟩ values hvalues
      obtain ⟨hne, huniv⟩ := hlists values hvalues
      have hvalid := (exists_outcomes_iff hconfig hlists).mp ⟨outcomes, houtcomes⟩ values hvalues
      exact ⟨hne, hvalid, huniv⟩
    · intro h
      have hlists : ∀ values ∈ lists, values ≠ [] ∧ kind.univOf values ≤ maxUniv :=
        fun values hvalues => ⟨(h values hvalues).1, (h values hvalues).2.2⟩
      have hvalid : ∀ values ∈ lists, kind.Valid values :=
        fun values hvalues => (h values hvalues).2.1
      obtain ⟨outcomes, houtcomes⟩ :=
        (@exists_outcomes_iff codec kind params config lists hconfig hlists).mpr hvalid
      exact ⟨_, hlists, outcomes, houtcomes, rfl⟩
  · have hsame : Encodes codec kind params (config.batched workers batchWork) =
        Encodes codec kind params config :=
      funext fun _ => funext fun _ => propext (Encodes.batched_iff hconfig hbatch)
    rw [encode_ok_iff hparams (BuildConfig.validate_batched hconfig hbatch),
      encode_ok_iff hparams hconfig, hsame]
  · obtain ⟨hlists, outcomes, houtcomes, harchive⟩ := (encode_ok_iff hparams hconfig).mp hencode
    obtain ⟨hrecords, hkind, hsameParams, hcount, hpostings, hsize⟩ :=
      @appendAll_spec (fresh kind params) [] rfl outcomes
    rw [← harchive] at hrecords hkind hsameParams hcount hpostings hsize
    have hkind : archive.kind = kind := hkind
    have hsameParams : archive.params = params := hsameParams
    refine ⟨hkind, hsameParams, ?_, ?_, ?_, fun hshort => ?_⟩
    · rw [hcount, houtcomes.length_eq]
      exact Nat.zero_add _
    · rw [hpostings, map_length_eq houtcomes]
      exact Nat.zero_add _
    · rw [hsize]
      exact (Nat.zero_add _).trans_le (sum_record_le houtcomes)
    · obtain ⟨records, hwalk, hlocated⟩ := exists_recordsFrom hrecords
        (forall_fits houtcomes fun values hvalues => (hlists values hvalues).2) hshort rfl
      have hencodes :
          List.Forall₂ (Encodes codec archive.kind archive.params config) lists outcomes := by
        rw [hkind, hsameParams]
        exact houtcomes
      exact ⟨records, hwalk, forall₂_recalls hlocated hencodes⟩

/-- Two lists of docids, in one batch and each in a batch of its own. -/
theorem encoded_lists_read_back_of_two :
    ∃ archive records, encode .vbyte .docs [[1, 4, 6], [2]] {} {} = .ok archive ∧
      encode .vbyte .docs [[1, 4, 6], [2]] {} (BuildConfig.batched {} 3 1) = .ok archive ∧
      archive.lists = 2 ∧ archive.postings = 4 ∧ archive.records = .ok records ∧
      List.Forall₂ (Recalls archive .vbyte) records [[1, 4, 6], [2]] := by
  obtain ⟨haccepts, hbatches, hreads⟩ :=
    @encoded_lists_read_back {} {} .vbyte .docs [[1, 4, 6], [2]]
      (by decide +kernel) (by decide +kernel)
  obtain ⟨archive, hencode⟩ := haccepts.mpr (by
    rw [List.forall_mem_cons, List.forall_mem_singleton]
    refine ⟨⟨by decide, ?_, by decide⟩, by decide, ?_, by decide⟩
    · exact show [1, 4, 6].Pairwise (· < ·) by decide
    · exact show [2].Pairwise (· < ·) by decide)
  obtain ⟨-, -, hlists, hpostings, hsize, hrecalls⟩ := hreads archive hencode
  obtain ⟨records, hrecords, hforall⟩ := hrecalls (Nat.lt_of_le_of_lt hsize (by decide))
  exact ⟨archive, records, hencode, (hbatches 3 1 Nat.one_pos archive).mpr hencode, hlists,
    hpostings, hrecords, hforall⟩

end Archive
end Postings
