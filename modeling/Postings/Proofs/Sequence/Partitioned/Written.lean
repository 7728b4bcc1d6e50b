import Postings.Proofs.Sequence.Partitioned.Bounds

/-!
# Payloads behind one another

The payloads of several partitions are written into a bit string of their own.
Each begins on a byte boundary, where the one before it was padded to; what is
written later only adds to it, so every payload still opens in the end.
-/

namespace Postings
namespace Partitioned

open BitString

variable {nested : Format} {params : Params} {config : BuildConfig} {values ends : List Nat}
  {univ : Nat}

/-- A region that opens where a bit string is carried opens where an extension is. -/
theorem opensWhereCarried_of_extends {f : Format} {v w : BitString} {start u : Nat}
    {list : List Nat} (h : f.OpensWhereCarried w start u list params) (hv : v.Extends w) :
    f.OpensWhereCarried v start u list params :=
  fun _ _ hpos hcarries => h _ _ hpos (hcarries.mono hv)

/-- Partition `p` as its writer computes it. -/
theorem take_drop_eq_segment (values ends : List Nat) (p : Nat) :
    ((values.drop (startAt ends p)).take (startAt ends (p + 1) - startAt ends p)).map
      (· - baseAt values ends p) = segment values ends p := rfl

theorem getLastD_take_drop (h : Ends values.length ends) {p : Nat} (hp : p < ends.length)
    (fallback : Nat) :
    ((values.drop (startAt ends p)).take (startAt ends (p + 1) - startAt ends p)).getLastD
      fallback = upperAt values ends p := by
  obtain ⟨hlt, heq⟩ := upperAt_eq h hp
  have hstart := h.startAt_lt hp
  rw [List.getLastD_eq_getLast?, List.getLast?_take, if_neg (by omega), List.getElem?_drop,
    show startAt ends p + (startAt ends (p + 1) - startAt ends p - 1) =
      startAt ends (p + 1) - 1 by omega, List.getElem?_eq_getElem hlt, heq]
  rfl

/-- What is known of the payloads of the partitions from the `k`-th on, the first of
which was written at `start`. -/
structure Payloads (nested : Format) (params : Params) (config : BuildConfig)
    (values : List Nat) (univ : Nat) (ends : List Nat) (k start : Nat) (all : BitString)
    (parts : List Part) : Prop where
  length_eq : parts.length = ends.length - k
  upper_eq : ∀ i (hi : i < parts.length), parts[i].upper = upperAt values ends (k + i)
  stop_le : ∀ i (hi : i < parts.length), parts[i].stop * 8 ≤ all.size
  opens : ∀ i, i < parts.length →
    nested.OpensWhereCarried all
      (if i = 0 then start else ((parts[i - 1]?.map Part.stop).getD 0) * 8)
      (spanAt values ends (k + i)) (segment values ends (k + i)) params
  size_le : ∀ {rate}, nested.GrowsWithin params config rate →
    all.size + (rate + 7) * baseAt values ends k ≤ start + (rate + 7) * univ
  size_eq : ∀ {size}, nested.Measures params config size →
    all.size = start + ((List.range' k (ends.length - k)).map fun p =>
      size (segment values ends p) (spanAt values ends p)).sum

namespace Payloads

/-- Behind the last partition there is no payload. -/
theorem nil (hvalues : Ascending values univ) (h : Ends values.length ends) {k : Nat}
    (hk : k = ends.length) (bits : BitString) :
    Payloads nested params config values univ ends k bits.size bits [] := by
  refine ⟨?_, fun i hi => ?_, fun i hi => ?_, fun i hi => ?_, fun {rate} _ => ?_, fun _ => ?_⟩
  · rw [List.length_nil]
    omega
  · cases hi
  · cases hi
  · cases hi
  · exact Nat.add_le_add_left (Nat.mul_le_mul_left _ (baseAt_le_univ h hvalues (by omega))) _
  · rw [hk, Nat.sub_self]
    rfl

/-- A payload in front of those of the partitions behind it. -/
theorem cons (hnested : nested.Faithful params config) (hvalues : Ascending values univ)
    (h : Ends values.length ends) {k : Nat} (hp : k < ends.length)
    {bits region all : BitString} {parts : List Part} (haligned : bits.size % 8 = 0)
    (hwrite : (nested.write (segment values ends k) (spanAt values ends k) params config).runFrom
      bits = (.ok (), region))
    (hextends : all.Extends (region.padTo 8))
    (hparts : Payloads nested params config values univ ends (k + 1) (region.padTo 8).size all
      parts) :
    Payloads nested params config values univ ends k bits.size all
      (⟨upperAt values ends k, (region.padTo 8).size / 8⟩ :: parts) := by
  have hsegment := ascending_segment h hvalues hp
  have hstop : (region.padTo 8).size / 8 * 8 = (region.padTo 8).size := by
    have := alignUp_mod_eight region.size
    rw [size_padTo_eight]
    omega
  refine ⟨?_, fun i hi => ?_, fun i hi => ?_, fun i hi => ?_, fun {rate} hrate => ?_,
    fun {size} hsize => ?_⟩
  · rw [List.length_cons, hparts.length_eq]
    omega
  · cases i with
    | zero => rfl
    | succ i =>
        rw [List.getElem_cons_succ, hparts.upper_eq i (Nat.lt_of_succ_lt_succ hi)]
        congr 1
        omega
  · cases i with
    | zero =>
        change (region.padTo 8).size / 8 * 8 ≤ all.size
        rw [hstop]
        exact hextends.size_le
    | succ i => exact hparts.stop_le i (Nat.lt_of_succ_lt_succ hi)
  · cases i with
    | zero =>
        exact opensWhereCarried_of_extends (hnested.opens hsegment hwrite)
          (hextends.trans (padTo_extends region 8))
    | succ i =>
        have hopens := hparts.opens i (Nat.lt_of_succ_lt_succ hi)
        rw [show k + 1 + i = k + (i + 1) by omega] at hopens
        rw [if_neg (Nat.succ_ne_zero i), Nat.add_sub_cancel]
        cases i with
        | zero =>
            rw [if_pos rfl] at hopens
            change nested.OpensWhereCarried all ((region.padTo 8).size / 8 * 8) _ _ _
            rwa [hstop]
        | succ i => exact hopens
  · have hrest := hparts.size_le hrate
    have hregion := hrate.size_le hsegment hwrite
    have hpad : (region.padTo 8).size ≤ region.size + 7 := by
      rw [size_padTo_eight]
      exact alignUp_eight_le _
    have hone : 7 ≤ 7 * spanAt values ends k := Nat.le_mul_of_pos_right 7 (Nat.succ_pos _)
    rw [← baseAt_add_spanAt h hvalues.increasing hp, Nat.mul_add,
      Nat.add_mul rate 7 (spanAt values ends k)] at hrest
    omega
  · have hregion := hsize.size_eq hsegment haligned hwrite
    have hwhole := hsize.whole (segment values ends k) (spanAt values ends k)
    have hpad : (region.padTo 8).size = region.size := by
      rw [size_padTo_eight, alignUp]
      omega
    rw [hparts.size_eq hsize, hpad, hregion,
      show ends.length - k = ends.length - (k + 1) + 1 by omega, List.range'_succ,
      List.map_cons, List.sum_cons, Nat.add_assoc]

end Payloads

/-- The payloads of partitions are written, from the `k`-th on.  The induction is on
how many are left. -/
theorem writePayloads_eq (hnested : nested.Faithful params config)
    (hvalues : Ascending values univ) (h : Ends values.length ends) {left : Nat} :
    ∀ {k : Nat} {bits : BitString}, k + left = ends.length → bits.size % 8 = 0 →
      ∃ all parts,
        writePayloads nested params config bits (startAt ends k) (baseAt values ends k)
          (values.drop (startAt ends k)) (ends.drop k) = .ok (all, parts) ∧
        all.Extends bits ∧ all.size % 8 = 0 ∧
        Payloads nested params config values univ ends k bits.size all parts := by
  induction left with
  | zero =>
      intro k bits hk haligned
      refine ⟨bits, [], ?_, .refl bits, haligned, .nil hvalues h hk bits⟩
      rw [show ends.drop k = [] from List.drop_of_length_le (by omega)]
      rfl
  | succ left ih =>
      intro k bits hk haligned
      have hp : k < ends.length := by omega
      have hsegment := ascending_segment h hvalues hp
      have hstart := h.startAt_lt hp
      obtain ⟨region, hwrite⟩ := hnested.accepts hsegment bits
      have hgrows := hnested.grows hsegment hwrite
      have haligned' : (region.padTo 8).size % 8 = 0 := by
        rw [size_padTo_eight]
        exact alignUp_mod_eight _
      obtain ⟨all, parts, hrest, hextends, hsize, hparts⟩ :=
        ih (k := k + 1) (by omega) haligned'
      refine ⟨all, ⟨upperAt values ends k, (region.padTo 8).size / 8⟩ :: parts, ?_,
        (hextends.trans (padTo_extends region 8)).trans hgrows, hsize,
        .cons hnested hvalues h hp haligned hwrite hextends hparts⟩
      rw [List.drop_eq_getElem_cons hp, writePayloads, ← startAt_succ hp,
        getLastD_take_drop h hp, take_drop_eq_segment,
        show upperAt values ends k - baseAt values ends k + 1 = spanAt values ends k from rfl]
      simp only [hwrite, List.drop_drop]
      rw [Nat.add_sub_cancel' (Nat.le_of_lt hstart), ← baseAt_succ, hrest]
      rfl

end Partitioned
end Postings
