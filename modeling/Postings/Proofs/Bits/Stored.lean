import Mathlib.Algebra.GroupWithZero.Nat
import Postings.Proofs.Bits.Regions
import Postings.Proofs.Loading

/-!
# Bit strings and regions, stored and loaded

A bit string and a collection of regions are loaded from exactly the bytes that they are
stored as, provided that their sizes are 64-bit numbers.  Nothing else is accepted: the
words that are read have no bit set past the declared size and the ends that are read do
not go down and stay within the bits, so what was read is stored as the bytes it came from.
-/

namespace Postings

/-! ## Bit strings -/

namespace BitString

theorem ofWords?_words (v : BitString) : ofWords? v.words v.size = some v := by
  have hlast : wordAt v.words (v.size / 64) < 2 ^ (v.size % 64) := by
    refine Nat.lt_pow_two_of_testBit _ fun j hj => ?_
    by_cases hword : j < 64
    · rw [testBit_wordAt v hword]
      exact bit_eq_false_of_size_le v (by omega)
    · exact testBit_wordAt_of_le _ _ (by omega)
  rw [ofWords?, dif_pos ⟨v.words_size, hlast⟩]

theorem of_ofWords? {words : Array UInt64} {size : Nat} {v : BitString}
    (h : ofWords? words size = some v) : v.words = words ∧ v.size = size := by
  rw [ofWords?] at h
  split at h
  · obtain rfl := Option.some.inj h
    exact ⟨rfl, rfl⟩
  · cases h

/-- The words of the stored form, as numbers. -/
theorem store_eq (v : BitString) :
    v.store = leBytes 8 v.size ++ (v.words.toList.map UInt64.toNat).flatMap (leBytes 8) := by
  rw [store, List.flatMap_map]

theorem loads_load {v : BitString} (h : v.size < 2 ^ 64) : Loads load v.store v := by
  have hwords : ∀ x ∈ v.words.toList.map UInt64.toNat, x < 2 ^ 64 := by
    intro x hx
    obtain ⟨word, -, rfl⟩ := List.mem_map.mp hx
    exact word.toNat_lt
  have hcount : (v.words.toList.map UInt64.toNat).length = (v.size + 63) / 64 := by
    rw [List.length_map, Array.length_toList, v.words_size]
  have hback : ((v.words.toList.map UInt64.toNat).map Nat.toUInt64).toArray = v.words := by
    rw [List.map_map, show Nat.toUInt64 ∘ UInt64.toNat = id from
      funext fun word => UInt64.ofNat_toNat, List.map_id, Array.toArray_toList]
  rw [store_eq]
  refine (loads_loadU64 _ h).bind ?_
  rw [← List.append_nil (List.flatMap _ _), ← hcount]
  refine (loads_loadU64s _ hwords).bind ?_
  simp only [hback, ofWords?_words]
  exact .pure v

/-- Whatever is accepted is the stored form of what was read. -/
theorem of_load {v : BitString} {bytes rest : List UInt8}
    (h : load.runFrom bytes = (.ok v, rest)) : v.size < 2 ^ 64 ∧ bytes = v.store ++ rest := by
  obtain ⟨size, afterSize, hsize, hload⟩ := Attempt.of_runFrom_bind h
  obtain ⟨words, afterWords, hwords, hchecked⟩ := Attempt.of_runFrom_bind hload
  obtain ⟨hlt, rfl⟩ := of_loadU64 hsize
  obtain ⟨-, hnumbers, rfl⟩ := of_loadU64s hwords
  split at hchecked
  · rename_i read hread
    cases hchecked
    obtain ⟨hv, rfl⟩ := of_ofWords? hread
    have hback : (v.words.toList.map UInt64.toNat) = words := by
      rw [hv, List.map_map]
      refine (List.map_congr_left fun x hx => ?_).trans (List.map_id words)
      exact UInt64.toNat_ofNat_of_lt' (hnumbers x hx)
    rw [store_eq, hback, List.append_assoc]
    exact ⟨hlt, rfl⟩
  · cases hchecked

end BitString

/-! ## Regions -/

namespace Regions

/-- Every region lies within the bits, and none ends before it begins. -/
def Ordered (r : Regions) : Prop :=
  ∀ i, i < r.size → r.offset i ≤ r.stop i ∧ r.stop i ≤ r.bits.size

theorem checkEnds_eq_ok {size prev : Nat} {stops : List Nat} :
    checkEnds size prev stops = .ok () ↔
      ∀ (i last : Nat), stops[i]? = some last →
        (prev :: stops)[i]?.getD 0 ≤ last ∧ last ≤ size := by
  induction stops generalizing prev with
  | nil => exact ⟨fun _ i last hlast => absurd hlast (by simp), fun _ => rfl⟩
  | cons first stops ih =>
      rw [checkEnds]
      constructor
      · intro h i last hlast
        split at h
        · cases h
        · rename_i hfine
          cases i with
          | zero =>
              obtain rfl := Option.some.inj hlast
              exact ⟨Nat.not_lt.mp fun hlt => hfine (.inl hlt),
                Nat.not_lt.mp fun hlt => hfine (.inr hlt)⟩
          | succ i => exact ih.mp h i last hlast
      · intro h
        obtain ⟨hprev, hsize⟩ : prev ≤ first ∧ first ≤ size := h 0 first rfl
        rw [if_neg (not_or.mpr ⟨Nat.not_lt.mpr hprev, Nat.not_lt.mpr hsize⟩)]
        exact ih.mpr fun i last hlast => h (i + 1) last hlast

theorem stop_eq_of_getElem? {r : Regions} {i last : Nat} (h : r.ends.toList[i]? = some last) :
    i < r.size ∧ r.stop i = last := by
  rw [Array.getElem?_toList] at h
  obtain ⟨hi, -⟩ := Array.getElem?_eq_some_iff.mp h
  exact ⟨hi, by rw [stop, h, Option.getD_some]⟩

theorem checkEnds_eq_ok_iff_ordered {r : Regions} :
    checkEnds r.bits.size 0 r.ends.toList = .ok () ↔ r.Ordered := by
  have hoffset : ∀ i, (0 :: r.ends.toList)[i]?.getD 0 = r.offset i := by
    intro i
    cases i with
    | zero => rfl
    | succ i => rw [offset_succ, stop, List.getElem?_cons_succ, Array.getElem?_toList]
  rw [checkEnds_eq_ok]
  constructor
  · intro h i hi
    have hthere : r.ends.toList[i]? = some (r.stop i) := by
      have hlt : i < r.ends.size := hi
      rw [stop, Array.getElem?_toList, Array.getElem?_eq_getElem hlt, Option.getD_some]
    rw [← hoffset i]
    exact h i _ hthere
  · intro h i last hlast
    obtain ⟨hi, rfl⟩ := stop_eq_of_getElem? hlast
    rw [hoffset i]
    exact h i hi

theorem empty_ordered : empty.Ordered := fun _ hi => absurd hi (Nat.not_lt_zero _)

/-- The offset behind the last region is within the bits. -/
theorem Ordered.offset_le {r : Regions} (h : r.Ordered) : r.offset r.size ≤ r.bits.size := by
  cases hsize : r.size with
  | zero => exact Nat.zero_le _
  | succ i => exact (h i (by omega)).2

/-- The regions take up what lies before the offset behind them. -/
theorem Ordered.sum_sizes {r : Regions} (h : r.Ordered) :
    ((List.range r.size).map fun i => r.stop i - r.offset i).sum = r.offset r.size := by
  have hfirst : ∀ count, count ≤ r.size →
      ((List.range count).map fun i => r.stop i - r.offset i).sum = r.offset count := by
    intro count hcount
    induction count with
    | zero => rfl
    | succ count ih =>
        obtain ⟨hle, -⟩ := h count hcount
        rw [List.range_succ, List.map_append, List.sum_append, ih (by omega), offset_succ,
          List.map_singleton, List.sum_singleton]
        omega
  exact hfirst r.size (Nat.le_refl _)

theorem Ordered.push {r : Regions} (h : r.Ordered) (region : BitString) :
    (r.push region).Ordered := by
  have hbits : (r.push region).bits.size = r.bits.size + region.size :=
    BitString.size_append ..
  intro i hi
  rw [size_push] at hi
  rw [← offset_succ, hbits]
  rcases Nat.lt_or_eq_of_le (Nat.le_of_lt_succ hi) with hlt | rfl
  · rw [offset_push r region (Nat.le_of_lt hlt), offset_push r region hlt, offset_succ]
    obtain ⟨hle, hwithin⟩ := h i hlt
    exact ⟨hle, by omega⟩
  · rw [offset_push r region (Nat.le_refl _), offset_push_size]
    have := h.offset_le
    exact ⟨by omega, Nat.le_refl _⟩

theorem loads_load {r : Regions} (hsize : r.size < 2 ^ 64) (hbits : r.bits.size < 2 ^ 64)
    (hordered : r.Ordered) : Loads load r.store r := by
  have hends : ∀ x ∈ r.ends.toList, x < 2 ^ 64 := by
    intro x hx
    obtain ⟨i, hi⟩ := List.mem_iff_getElem?.mp hx
    obtain ⟨hlt, rfl⟩ := stop_eq_of_getElem? hi
    exact Nat.lt_of_le_of_lt (hordered i hlt).2 hbits
  rw [store, List.append_assoc]
  refine (loads_loadU64 _ hsize).bind ((loads_loadU64s _ hends).bind ?_)
  rw [← List.append_nil r.bits.store]
  refine (BitString.loads_load hbits).bind ?_
  rw [← List.append_nil []]
  exact (Loads.lift (checkEnds_eq_ok_iff_ordered.mpr hordered)).bind (.pure r)

/-- Whatever is accepted is the stored form of what was read. -/
theorem of_load {r : Regions} {bytes rest : List UInt8}
    (h : load.runFrom bytes = (.ok r, rest)) : r.Ordered ∧ bytes = r.store ++ rest := by
  obtain ⟨count, afterCount, hcount, hload⟩ := Attempt.of_runFrom_bind h
  obtain ⟨ends, afterEnds, hends, hloadBits⟩ := Attempt.of_runFrom_bind hload
  obtain ⟨bits, afterBits, hbits, hchecked⟩ := Attempt.of_runFrom_bind hloadBits
  obtain ⟨⟨⟩, hcheck, hread⟩ := Attempt.of_runFrom_lift_bind hchecked
  cases hread
  obtain ⟨-, rfl⟩ := of_loadU64 hcount
  obtain ⟨rfl, -, rfl⟩ := of_loadU64s hends
  obtain ⟨-, rfl⟩ := BitString.of_load hbits
  exact ⟨checkEnds_eq_ok_iff_ordered.mp hcheck, by simp only [store, size, List.append_assoc]; rfl⟩

end Regions
end Postings
