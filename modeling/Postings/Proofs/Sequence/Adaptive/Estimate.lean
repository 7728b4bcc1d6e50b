import Postings.Plan.Cost
import Postings.Proofs.Sequence.Adaptive.Chosen

/-!
# The byte codec takes what it is estimated at

The planner adds up what postings cost, each from its value and the number after the one
before it.  The writer takes the gaps of values that are relative to the base of their
partition, cuts them into blocks and writes them byte by byte.  For the byte codec these
agree: a gap takes a byte for each digit, wherever it stands in its block.  So the choice
that the writer makes on bytes has the size that the planner estimates.
-/

namespace Postings
namespace Adaptive

open BitString

variable {values : List Nat} {univ base : Nat}

/-! ## Bytes and costs -/

/-- Blocks of the byte codec are the values one after another. -/
theorem encodeBlocks_vbyte {blocks : List (List Nat)} {bytes : List UInt8}
    (h : GapBlocks.encodeBlocks .vbyte blocks = .ok bytes) :
    bytes = Base128.continued.encode blocks.flatten := by
  induction blocks generalizing bytes with
  | nil => exact (Except.ok.inj h).symm
  | cons block blocks ih =>
      obtain ⟨-, first, others, hfirst, hothers, rfl⟩ := GapBlocks.encodeBlocks_cons_eq_ok.mp h
      have hblock : first = Base128.continued.encode block := by
        cases block with
        | nil => exact (Except.ok.inj hfirst).symm
        | cons gap gaps => exact (Except.ok.inj hfirst).symm
      rw [hblock, ih hothers, List.flatten_cons]
      exact List.flatMap_append.symm

/-- The gaps behind a value take what the values cost. -/
theorem length_encode_gapsOf (prev : Option Nat) (values : List Nat) :
    8 * (Base128.continued.encode (GapBlocks.gapsOf prev values)).length =
      runCost .vbyte (prev.elim 0 (· + 1)) values := by
  induction values generalizing prev with
  | nil => rfl
  | cons v values ih =>
      have hgap : GapBlocks.gapsOf prev (v :: values) =
          (v - prev.elim 0 (· + 1)) :: GapBlocks.gapsOf (some v) values := by
        cases prev with
        | none => rfl
        | some p => rfl
      have hrest := ih (some v)
      rw [Base128.encode] at hrest
      rw [hgap, Base128.encode, List.flatMap_cons, List.length_append, length_encodeOne,
        Nat.mul_add, hrest]
      rfl

theorem length_encodePayload_vbyte {payload : List UInt8}
    (h : GapBlocks.encodePayload .vbyte values = .ok payload) :
    8 * payload.length = runCost .vbyte 0 values := by
  rw [encodeBlocks_vbyte h, flatten_chunks]
  exact length_encode_gapsOf none values

/-- **The byte codec takes what it is estimated at.** -/
theorem measures_vbyte (params : Params) (config : BuildConfig) :
    (format .vbyte).Measures params config fun values univ =>
      bitSize (runCost .vbyte 0 values) univ values.length where
  size_eq {values univ} h {before bits} haligned hwrite := by
    obtain ⟨payload, hpayload⟩ := GapBlocks.exists_encodePayload .vbyte h
    have hbytes := length_encodePayload_vbyte hpayload
    have hstart : alignUp before.size 8 = before.size := by
      rw [alignUp]
      omega
    have hround : alignUp (8 * payload.length) 8 = 8 * payload.length := by
      rw [alignUp]
      omega
    rw [size_of_write h hpayload params config hwrite, hstart, bitSize, ← hbytes, hround]
    simp only [eq_comm]
  whole values univ := by
    rw [bitSize]
    split
    · rfl
    · simp only [alignUp]
      omega

end Adaptive
end Postings
