import Postings.Bits.Truncate
import Postings.Proofs.Bits.Fields
import Postings.Proofs.Refines

/-!
# Bits that were cut off

A bit string that was cut is extended by the whole one.  What lies within the cut reads
the same in both.  A scan that finds something in the cut finds it in the whole, and
one that ends before the cut does cannot tell them apart.  The readers check that a
field is there before they read it, so what they read from the cut they also read from
the whole.
-/

namespace Postings
namespace BitString

/-- A bit string extends what is left when it is cut. -/
theorem extends_truncate (v : BitString) (len : Nat) : v.Extends (v.truncate len) := by
  refine @extends_of_toList (v.truncate len) v (v.toList.drop len) ?_
  rw [toList_truncate, List.take_append_drop]

theorem size_truncate {v : BitString} {len : Nat} (h : len ≤ v.size) :
    (v.truncate len).size = len := by
  rw [← length_toList, toList_truncate, List.length_take, length_toList, Nat.min_eq_left h]

namespace Extends

variable {v cut : BitString}

/-! ## Fields -/

/-- What is left of a carried string after a cut behind it. -/
theorem carries_cut (h : v.Extends cut) {w : BitString} {pos start : Nat}
    (hcarries : v.Carries pos w start) (hfits : pos + (w.size - start) ≤ cut.size) :
    cut.Carries pos w start where
  fits := hfits
  bit_eq i hi := by rw [← h.bit_eq _ (by omega), hcarries.bit_eq i hi]

theorem getBits_eq (h : v.Extends cut) {pos len : Nat} (hlen : len ≤ 64)
    (hfits : pos + len ≤ cut.size) : v.getBits pos len = cut.getBits pos len := by
  have hsame := (Carries.of_extends h (Nat.zero_le _)).getBits (k := pos) hlen (by omega)
  rwa [Nat.zero_add] at hsame

/-- The bytes of a cut at a byte boundary are the first ones. -/
theorem exists_bytesFrom (h : v.Extends cut) (haligned : cut.size % 8 = 0) (pos : Nat) :
    ∃ more, v.bytesFrom pos = cut.bytesFrom pos ++ more := by
  have hsize := h.size_le
  refine ⟨(v.bytesFrom pos).drop (cut.bytesFrom pos).length, ?_⟩
  have htake : (v.bytesFrom pos).take (cut.bytesFrom pos).length = cut.bytesFrom pos := by
    apply List.ext_getElem
    · simp only [bytesFrom, List.length_take, List.length_map, List.length_range]
      omega
    · intro i h1 h2
      rw [List.getElem_take, ← UInt8.toNat_inj]
      simp only [bytesFrom, List.length_map, List.length_range] at h2
      simp only [bytesFrom, List.getElem_map, List.getElem_range, toNat_byteAt]
      exact h.getBits_eq (by omega) (by omega)
  rw [← htake, List.length_take, Nat.min_eq_left (by rw [← htake, List.length_take]; omega)]
  exact (List.take_append_drop _ _).symm

/-! ## Scans -/

theorem rank_eq (h : v.Extends cut) (b : Bool) {pos : Nat} (hpos : pos ≤ cut.size) :
    v.rank b pos = cut.rank b pos :=
  count_congr_below fun i hi => by rw [h.bit_eq i (by omega)]

theorem selectOne_eq (h : v.Extends cut) {pos k one : Nat}
    (hcut : cut.selectOne pos k = some one) : v.selectOne pos k = some one := by
  obtain ⟨hge, hlt, hbit, hrank⟩ := selectOne_eq_some.mp hcut
  have hsize := h.size_le
  refine selectOne_eq_some.mpr ⟨hge, by omega, by rw [h.bit_eq _ hlt, hbit], ?_⟩
  rw [h.rank_eq true (by omega), h.rank_eq true (by omega), hrank]

theorem nextOne_eq (h : v.Extends cut) {pos one : Nat} (hcut : cut.nextOne pos = some one) :
    v.nextOne pos = some one :=
  h.selectOne_eq hcut

/-- Up to a bound within the cut the next set bit is the same. -/
theorem filter_nextOne_eq (h : v.Extends cut) (pos : Nat) {bound : Nat}
    (hbound : bound ≤ cut.size) :
    (v.nextOne pos).filter (· < bound) = (cut.nextOne pos).filter (· < bound) := by
  cases hcut : cut.nextOne pos with
  | some one => rw [h.nextOne_eq hcut]
  | none =>
      cases hwhole : v.nextOne pos with
      | none => rfl
      | some one =>
          rw [Option.filter_none, Option.filter_some]
          by_cases hlt : one < bound
          · obtain ⟨hge, hbit, hbefore⟩ := nextOne_eq_some.mp hwhole
            have hfound : cut.nextOne pos = some one := by
              refine nextOne_eq_some.mpr ⟨hge, by rw [← h.bit_eq _ (by omega), hbit],
                fun i hi hlt' => ?_⟩
              rw [← h.bit_eq i (by omega)]
              exact hbefore i hi hlt'
            rw [hcut] at hfound
            cases hfound
          · rw [if_neg (by simpa using hlt)]

theorem prevOne_eq (h : v.Extends cut) {pos : Nat} (hpos : pos ≤ cut.size) :
    v.prevOne pos = cut.prevOne pos := by
  refine Option.ext fun one => ?_
  rw [prevOne_eq_some, prevOne_eq_some]
  refine and_congr_right fun hlt => ?_
  rw [h.bit_eq one (by omega)]
  refine and_congr_right fun _ => forall_congr' fun i => forall_congr' fun _ =>
    forall_congr' fun hi => ?_
  rw [h.bit_eq i (by omega)]

theorem countOnes_eq (h : v.Extends cut) {start stop : Nat} (hle : start ≤ stop)
    (hstop : stop ≤ cut.size) : v.countOnes start stop = cut.countOnes start stop := by
  have hwhole := v.countOnes_add_rank hle
  have hcut := cut.countOnes_add_rank hle
  rw [h.rank_eq true (by omega), h.rank_eq true hstop] at hwhole
  omega

end Extends

/-! ## Readers -/

/-- A reader of the cut reads the same from the whole, and no further than the cut. -/
def ReadsCut {α : Type} (v cut : BitString) (x : BitString → Reading α) : Prop :=
  Attempt.Refines Eq (fun s t => s = t ∧ s ≤ cut.size) (x cut) (x v)

theorem ReadsCut.eq {α : Type} {v cut : BitString} {x : BitString → Reading α}
    (h : ReadsCut v cut x) {pos stop : Nat} {a : α} (hcut : (x cut).runFrom pos = (.ok a, stop)) :
    (x v).runFrom pos = (.ok a, stop) ∧ stop ≤ cut.size := by
  obtain ⟨_, hrun, rfl, hle⟩ := h.run rfl hcut
  exact ⟨hrun, hle⟩

/-- What follows a reading starts where that one stopped. -/
theorem ReadsCut.bind {α β : Type} {v cut : BitString} {x : BitString → Reading α}
    {f : BitString → α → Reading β} (h : ReadsCut v cut x)
    (hf : ∀ a, ReadsCut v cut fun v => f v a) : ReadsCut v cut fun v => x v >>= f v :=
  Attempt.Refines.bind h fun a => Attempt.Refines.weaken (hf a) (fun _ _ h => h.1) fun _ _ h => h

theorem ReadsCut.bind_pure {α β : Type} {v cut : BitString} {x : BitString → Reading α}
    (h : ReadsCut v cut x) (f : α → β) : ReadsCut v cut fun v => x v >>= fun a => pure (f a) :=
  Attempt.Refines.bind h fun a => Attempt.Refines.pure (f a)

variable {v cut : BitString}

theorem take_readsCut (h : v.Extends cut) {len : Nat} (hlen : len ≤ 64) :
    ReadsCut v cut (·.take len) := by
  refine ⟨fun {pos _} hsame {a stop} hrun => ?_⟩
  subst hsame
  have hsize := h.size_le
  by_cases hfits : pos + len ≤ cut.size
  · rw [runFrom_take_of_fits hfits] at hrun
    obtain ⟨⟨⟩, rfl⟩ := Prod.mk.inj hrun
    refine ⟨_, ?_, rfl, hfits⟩
    rw [runFrom_take_of_fits (by omega), h.getBits_eq hlen hfits]
  · change (cut.take len).runFrom pos = _ at hrun
    rw [take, Attempt.runFrom_bind, Attempt.runFrom_get] at hrun
    simp only at hrun
    obtain ⟨_, hrange, -⟩ := Attempt.of_runFrom_lift_bind hrun
    rw [checkRange, if_neg hfits] at hrange
    cases hrange

theorem runFrom_skipZeros_eq (v : BitString) (pos : Nat) :
    v.skipZeros.runFrom pos =
      match v.nextOne pos with
      | some one => (.ok ((one - pos) % 2 ^ 32), one + 1)
      | none => (.error (.regionTooShort "unary code" (v.size + 1) v.size), pos) := by
  rw [skipZeros, Attempt.runFrom_bind, Attempt.runFrom_get]
  simp only
  cases v.nextOne pos <;> rfl

theorem skipZeros_readsCut (h : v.Extends cut) : ReadsCut v cut skipZeros := by
  refine ⟨fun {pos _} hsame {a stop} hrun => ?_⟩
  subst hsame
  rw [runFrom_skipZeros_eq] at hrun ⊢
  cases hcut : cut.nextOne pos with
  | none =>
      rw [hcut] at hrun
      cases hrun
  | some one =>
      rw [hcut] at hrun
      obtain ⟨⟨⟩, rfl⟩ := Prod.mk.inj hrun
      rw [h.nextOne_eq hcut]
      exact ⟨_, rfl, rfl, (selectOne_eq_some.mp hcut).2.1⟩

theorem takeBelow_readsCut (h : v.Extends cut) (code : String) (l : Nat) :
    ReadsCut v cut (·.takeBelow code l) := by
  simp only [ReadsCut, takeBelow]
  split
  · exact .throw_bind _ _ _
  · exact ReadsCut.bind_pure (take_readsCut h (by omega)) _

theorem gamma_readsCut (h : v.Extends cut) : ReadsCut v cut gamma :=
  (skipZeros_readsCut h).bind fun l => takeBelow_readsCut h _ l

theorem gammaPositive_readsCut (h : v.Extends cut) : ReadsCut v cut gammaPositive :=
  (gamma_readsCut h).bind_pure _

theorem delta_readsCut (h : v.Extends cut) : ReadsCut v cut delta :=
  (gamma_readsCut h).bind fun l => takeBelow_readsCut h _ l

end BitString
end Postings
