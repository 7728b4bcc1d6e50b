import Postings.Proofs.Bits.Fields
import Postings.Proofs.Plan.Exact

/-!
# Partitions cost no less than their parts

The estimate of a partition is zero when its values fill its universe, and otherwise
grows with the universe and with the posting costs.  Both add up over a run, and a part
of values that fill their universe fills its own; so no part of a partition costs more
than the partition.
-/

namespace Postings

variable {codec : Codec} {base : Nat} {front part back values : List Nat}

/-- Values that increase strictly from a base on. -/
def Rising (base : Nat) : List Nat → Prop
  | [] => True
  | v :: values => base ≤ v ∧ Rising (v + 1) values

theorem rising_append (base : Nat) (values others : List Nat) :
    Rising base (values ++ others) ↔ Rising base values ∧ Rising (runStop base values) others := by
  induction values generalizing base with
  | nil => exact ⟨fun h => ⟨trivial, h⟩, fun h => h.2⟩
  | cons v values ih =>
      rw [List.cons_append, Rising, ih, Rising, runStop, and_assoc]

theorem rising_of_increasing (hincreasing : values.Pairwise (· < ·))
    (hbase : ∀ v ∈ values, base ≤ v) : Rising base values := by
  induction values generalizing base with
  | nil => trivial
  | cons v values ih =>
      obtain ⟨hfirst, hrest⟩ := List.pairwise_cons.mp hincreasing
      exact ⟨hbase v (.head _), ih hrest hfirst⟩

theorem rising_of_headD (hincreasing : values.Pairwise (· < ·)) (hbase : base ≤ values.headD 0) :
    Rising base values := by
  refine rising_of_increasing hincreasing fun v hv => ?_
  cases values with
  | nil => cases hv
  | cons first values =>
      rcases List.mem_cons.mp hv with rfl | hv
      · exact hbase
      · exact hbase.trans (Nat.le_of_lt ((List.pairwise_cons.mp hincreasing).1 v hv))

theorem Rising.base_le (h : Rising base values) : ∀ v ∈ values, base ≤ v := by
  induction values generalizing base with
  | nil => exact fun v hv => absurd hv List.not_mem_nil
  | cons first values ih =>
      intro v hv
      rcases List.mem_cons.mp hv with rfl | hv
      · exact h.1
      · exact h.1.trans (Nat.le_of_lt (ih h.2 v hv))

theorem Rising.increasing (h : Rising base values) : values.Pairwise (· < ·) := by
  induction values generalizing base with
  | nil => exact .nil
  | cons first values ih => exact List.pairwise_cons.mpr ⟨h.2.base_le, ih h.2⟩

/-- The universe of a run has room for its values. -/
theorem Rising.le_runStop (h : Rising base values) :
    base + values.length ≤ runStop base values := by
  induction values generalizing base with
  | nil => exact Nat.le_refl base
  | cons v values ih =>
      have := ih h.2
      have := h.1
      rw [runStop, List.length_cons]
      omega

/-- Values cost the same relative to their base. -/
theorem runCost_map_sub (codec : Codec) {shift : Nat} (hshift : shift ≤ base)
    (h : Rising base values) :
    runCost codec (base - shift) (values.map (· - shift)) = runCost codec base values := by
  induction values generalizing base with
  | nil => rfl
  | cons v values ih =>
      have hrest := ih (by have := h.1; omega) h.2
      have hgap : codec.postingCost (v - shift) (base - shift) = codec.postingCost v base := by
        unfold Codec.postingCost
        rw [show v - shift - (base - shift) = v - base by omega]
      rw [List.map_cons, runCost, runCost, hgap, ← hrest]
      congr 2
      have := h.1
      omega

theorem alignUp_eight_mono {m n : Nat} (h : m ≤ n) : alignUp m 8 ≤ alignUp n 8 := by
  simp only [alignUp]
  omega

theorem bitSize_mono {cost cost' univ univ' n n' : Nat} (hcost : cost ≤ cost')
    (huniv : univ ≤ univ') (hfull : univ' = n' → univ = n) :
    Adaptive.bitSize cost univ n ≤ Adaptive.bitSize cost' univ' n' := by
  have hwhole := alignUp_eight_mono hcost
  have hbitmap := alignUp_eight_mono huniv
  rw [Adaptive.bitSize, Adaptive.bitSize]
  split
  · exact Nat.zero_le _
  · rename_i hgaps
    rw [if_neg fun hfull' => hgaps (hfull hfull')]
    omega

/-- A part of a partition costs no more than the partition. -/
theorem partitionCost_part_le (codec : Codec) (fixCost : Nat)
    (h : Rising base (front ++ (part ++ back))) :
    partitionCost codec fixCost (runStop base front) part ≤
      partitionCost codec fixCost base (front ++ (part ++ back)) := by
  obtain ⟨hfront, hpartBack⟩ := (rising_append _ _ _).mp h
  obtain ⟨hpart, hback⟩ := (rising_append _ _ _).mp hpartBack
  have hbelow := hfront.le_runStop
  have hwithin := hpart.le_runStop
  have habove := hback.le_runStop
  rw [partitionCost, partitionCost, runStop_append, runStop_append, runCost_append, runCost_append]
  refine Nat.add_le_add_right (bitSize_mono (by omega) (by omega) fun hfull => ?_) fixCost
  simp only [List.length_append] at hfull
  omega

/-! ## Partitions of a list -/

/-- A partition is cut at a position within it. -/
theorem take_drop_append {i k j : Nat} (hik : i ≤ k) (hkj : k ≤ j) :
    (values.drop i).take (j - i) =
      (values.drop i).take (k - i) ++ (values.drop k).take (j - k) := by
  rw [show j - i = (k - i) + (j - k) by omega, List.take_add, List.drop_drop,
    Nat.add_sub_cancel' hik]

/-- The base of the part behind a cut. -/
theorem runStop_take_drop {i k : Nat} (hik : i ≤ k) :
    runStop base (values.take k) =
      runStop (runStop base (values.take i)) ((values.drop i).take (k - i)) := by
  rw [← runStop_append, ← List.take_add, Nat.add_sub_cancel' hik]

theorem Rising.take_drop (h : Rising base values) (i j : Nat) :
    Rising (runStop base (values.take i)) ((values.drop i).take (j - i)) := by
  rw [← List.take_append_drop i values, rising_append] at h
  have hdrop := h.2
  rw [← List.take_append_drop (j - i) (values.drop i), rising_append] at hdrop
  exact hdrop.1

/-- **Costs grow with the partition**, at either end. -/
theorem edgeCost_mono {pricing : Pricing} (hincreasing : values.Pairwise (· < ·))
    (hbase : base ≤ values.headD 0) {i i' j' j : Nat} (hi : i ≤ i') (hij : i' ≤ j') (hj : j' ≤ j) :
    edgeCost pricing base values i' j' ≤ edgeCost pricing base values i j := by
  have hrising := (rising_of_headD hincreasing hbase).take_drop i j
  -- The outer partition is what is in front of the inner one, that one, and what is behind.
  have hcut : (values.drop i).take (j - i) = (values.drop i).take (i' - i) ++
      ((values.drop i').take (j' - i') ++ (values.drop j').take (j - j')) := by
    rw [take_drop_append hi (hij.trans hj), take_drop_append hij hj]
  rw [edgeCost, edgeCost, hcut, runStop_take_drop hi]
  refine partitionCost_part_le _ _ ?_
  rwa [← hcut]

/-! ## Cutting a partition -/

theorem alignUp_eight_add_le (m n : Nat) : alignUp m 8 + alignUp n 8 ≤ alignUp (m + n) 8 + 8 := by
  simp only [alignUp]
  omega

/-- Two payloads in place of one: a second tag, and a second size that is rounded up. -/
theorem bitSize_add_le {cost cost' univ univ' n n' : Nat} (hn : n ≤ univ) (hn' : n' ≤ univ') :
    Adaptive.bitSize cost univ n + Adaptive.bitSize cost' univ' n' ≤
      Adaptive.bitSize (cost + cost') (univ + univ') (n + n') + 16 := by
  have hcost := alignUp_eight_add_le cost cost'
  have huniv := alignUp_eight_add_le univ univ'
  rw [Adaptive.bitSize, Adaptive.bitSize, Adaptive.bitSize]
  by_cases hfull : univ + univ' = n + n'
  · rw [if_pos hfull, if_pos (by omega), if_pos (by omega)]
    exact Nat.zero_le _
  · rw [if_neg hfull]
    split <;> split <;> omega

/-- **A cut costs little**: the fixed cost once more, a tag, and the rounding of a size. -/
theorem edgeCost_cut_le {pricing : Pricing} (h : Rising base values) {i k j : Nat} (hik : i ≤ k)
    (hkj : k ≤ j) :
    edgeCost pricing base values i k + edgeCost pricing base values k j ≤
      edgeCost pricing base values i j + (pricing.fixCost + 16) := by
  have hrising := h.take_drop i j
  rw [take_drop_append hik hkj, rising_append] at hrising
  have hfront := hrising.1.le_runStop
  have hback := hrising.2.le_runStop
  rw [edgeCost, edgeCost, edgeCost, take_drop_append hik hkj, runStop_take_drop hik]
  generalize runStop base (values.take i) = base at hfront hback ⊢
  generalize (values.drop i).take (k - i) = front at hfront hback ⊢
  generalize (values.drop k).take (j - k) = back at hfront hback ⊢
  have hsize := @bitSize_add_le (runCost pricing.codec base front)
    (runCost pricing.codec (runStop base front) back) (runStop base front - base)
    (runStop (runStop base front) back - runStop base front) front.length back.length
    (by omega) (by omega)
  rw [← runCost_append, ← List.length_append,
    show runStop base front - base + (runStop (runStop base front) back - runStop base front) =
      runStop (runStop base front) back - base by omega, ← runStop_append] at hsize
  rw [partitionCost, partitionCost, partitionCost, ← runStop_append]
  omega

end Postings
