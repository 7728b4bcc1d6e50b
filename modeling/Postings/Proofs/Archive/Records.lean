import Postings.Archive.Encode
import Postings.Proofs.Bits.Fields

/-!
# The records of an archive

A record tells where it ends, as a position in the archive; the next one begins there.  So
a record depends on where it is put, and it is put behind all the records that were there.
`RecordsAt` says that records follow one another up to the end of a bit string; appending
one more keeps it so, and a walk from the first record finds them all.
-/

namespace Postings
namespace Archive

open BitString

variable {v : BitString} {pos : Nat} {entry : Encoded} {entries : List Encoded}

/-! ## One record -/

namespace Encoded

/-- The fields in front of a list, in a record at a position. -/
def header (entry : Encoded) (pos : Nat) : BitString :=
  ((BitString.empty.appendBits (pos + headerBits + entry.payload.size) 64).appendBits entry.univ
    32).appendBits entry.values.length 32

theorem record_eq (entry : Encoded) (pos : Nat) :
    entry.record pos = entry.header pos ++ entry.payload := rfl

theorem size_header (entry : Encoded) (pos : Nat) : (entry.header pos).size = headerBits := by
  rw [header, size_appendBits, size_appendBits, size_appendBits]
  rfl

theorem size_record (entry : Encoded) (pos : Nat) :
    (entry.record pos).size = headerBits + entry.payload.size := by
  rw [record_eq, size_append, size_header]

/-- An encoded list whose fields fit, in whole bytes. -/
structure Fits (entry : Encoded) : Prop where
  univ_lt : entry.univ < 2 ^ 32
  length_lt : entry.values.length < 2 ^ 32
  aligned : entry.payload.size % 8 = 0

/-- The fields of a record are read where the record is. -/
theorem getBits_header (hfits : entry.Fits) (hcarries : v.Carries pos (entry.record pos) 0)
    (hsize : v.size < 2 ^ 64) :
    v.getBits pos 64 = pos + headerBits + entry.payload.size ∧
      v.getBits (pos + 64) 32 = entry.univ ∧ v.getBits (pos + 96) 32 = entry.values.length := by
  have hstop := hcarries.fits
  rw [size_record] at hstop
  have hheader := hcarries.mono (append_extends (entry.header pos) entry.payload)
  have huniv := hheader.mono (appendBits_extends _ _ _)
  have hend := huniv.mono (appendBits_extends _ _ _)
  refine ⟨?_, ?_, ?_⟩
  · exact hend.getBits_appendBits (by decide) (by omega)
  · exact (huniv.advance 64 (Nat.le_add_right 64 32)).getBits_appendBits (by decide) hfits.univ_lt
  · exact (hheader.advance 96 (Nat.le_add_right 96 32)).getBits_appendBits (by decide)
      hfits.length_lt

/-- The list of a record is behind its fields. -/
theorem carries_payload (hcarries : v.Carries pos (entry.record pos) 0) :
    v.Carries (pos + headerBits) entry.payload 0 := by
  have hbehind := hcarries.advance headerBits (by rw [size_record]; omega)
  have hpayload := append_carries (entry.header pos) entry.payload
  rw [size_header, ← record_eq] at hpayload
  rw [Nat.zero_add] at hbehind
  exact hbehind.trans hpayload

end Encoded

/-! ## All records -/

/-- From a position on, records follow one another up to the end. -/
def RecordsAt (v : BitString) : (pos : Nat) → List Encoded → Prop
  | pos, [] => pos = v.size
  | pos, entry :: entries =>
      v.Carries pos (entry.record pos) 0 ∧
        RecordsAt v (pos + headerBits + entry.payload.size) entries

/-- One more record behind the others. -/
theorem RecordsAt.append (h : RecordsAt v pos entries) (entry : Encoded) :
    RecordsAt (v ++ entry.record v.size) pos (entries ++ [entry]) := by
  induction entries generalizing pos with
  | nil =>
      obtain rfl : pos = v.size := h
      refine ⟨append_carries v _, ?_⟩
      change v.size + headerBits + entry.payload.size = _
      rw [size_append, Encoded.size_record, Nat.add_assoc]
  | cons other entries ih =>
      obtain ⟨hcarries, hrest⟩ := h
      have hbefore : pos ≤ v.size := by
        have := hcarries.fits
        omega
      exact ⟨(Carries.of_extends (append_extends v _) hbefore).trans hcarries, ih hrest⟩

/-- What a record says of an encoded list. -/
structure Locates (v : BitString) (record : ListRecord) (entry : Encoded) : Prop where
  univ_eq : record.univ = entry.univ
  n_eq : record.n = entry.values.length
  aligned : record.offset % 8 = 0
  carries : v.Carries record.offset entry.payload 0

/-- **A walk finds all records**, one for each list and in their order. -/
theorem exists_recordsFrom (h : RecordsAt v pos entries) (hfits : ∀ entry ∈ entries, entry.Fits)
    (hsize : v.size < 2 ^ 64) (hpos : pos % 8 = 0) :
    ∃ records, recordsFrom v pos = .ok records ∧ List.Forall₂ (Locates v) records entries := by
  induction entries generalizing pos with
  | nil =>
      obtain rfl : pos = v.size := h
      refine ⟨[], ?_, .nil⟩
      rw [recordsFrom, if_neg (Nat.lt_irrefl _)]
      rfl
  | cons entry entries ih =>
      obtain ⟨hcarries, hrest⟩ := h
      obtain ⟨hentry, hentries⟩ := List.forall_mem_cons.mp hfits
      obtain ⟨hstop, huniv, hn⟩ := Encoded.getBits_header hentry hcarries hsize
      have haligned := hentry.aligned
      have hend := hcarries.fits
      rw [Encoded.size_record] at hend
      have hheader : headerBits = 128 := rfl
      obtain ⟨records, hrecords, hlocated⟩ := ih hrest hentries (by omega)
      refine ⟨⟨pos + headerBits, entry.univ, entry.values.length⟩ :: records, ?_,
        .cons ⟨rfl, rfl, by simp only; omega, Encoded.carries_payload hcarries⟩ hlocated⟩
      have hrange : v.checkRange "list record header" pos headerBits = .ok () := by
        rw [checkRange, if_pos (by omega)]
      rw [recordsFrom, if_pos (by omega), hrange]
      simp only [hstop, huniv, hn]
      rw [dif_pos ⟨by omega, by omega⟩, hrecords]
      rfl

end Archive
end Postings
