import Postings.Proofs.Sequence.Law
import Postings.Sequence.Partitioned

/-!
# The bounds of partitions

The ends of the partitions cut the positions of a list, and with them its values:
partition `p` has the positions from `startAt p` up to `startAt (p + 1)`, and its
values lie from `baseAt p` to `upperAt p`.  Nothing lies between one partition's
last value and the next one's base, so a value is in the partition whose bounds it
is within.  What is written of a partition is its `segment`, an ascending list again.
-/

namespace Postings
namespace Partitioned

/-! ## Ends -/

/-- Partitions that are not empty and finish at `n`. -/
structure Ends (n : Nat) (ends : List Nat) : Prop where
  last : ends.getLast? = some n
  increasing : ends.Pairwise (· < ·)
  positive : ∀ stop ∈ ends, 0 < stop

theorem checkEnds_eq_ok {ends : List Nat} {n : Nat} : checkEnds ends n = .ok () ↔ Ends n ends := by
  rw [checkEnds]
  split
  · rename_i hbad
    constructor
    · intro h
      cases h
    · intro h
      rcases hbad with hlast | hhead
      · exact absurd h.last hlast
      · exact absurd (h.positive 0 (List.mem_of_head? hhead)) (Nat.lt_irrefl 0)
  · rename_i hgood
    rw [not_or, not_not] at hgood
    obtain ⟨hlast, hhead⟩ := hgood
    cases hadj : firstAdjacent (fun a b => decide (b ≤ a)) 0 ends with
    | some found =>
        constructor
        · intro h
          cases h
        · intro h
          rw [firstAdjacent_le_eq_none.mpr h.increasing] at hadj
          cases hadj
    | none =>
        have hincreasing := firstAdjacent_le_eq_none.mp hadj
        refine ⟨fun _ => ⟨hlast, hincreasing, ?_⟩, fun _ => rfl⟩
        cases ends with
        | nil => exact fun _ hmem => by cases hmem
        | cons first ends =>
            have hfirst : 0 < first := Nat.pos_of_ne_zero fun hzero => hhead (by rw [hzero]; rfl)
            intro stop hmem
            rcases List.mem_cons.mp hmem with rfl | hmem
            · exact hfirst
            · have := (List.pairwise_cons.mp hincreasing).1 stop hmem
              omega

/-- Where partition `p` starts, which is where the one before it ends. -/
def startAt (ends : List Nat) (p : Nat) : Nat :=
  if p = 0 then 0 else ends[p - 1]?.getD 0

@[simp] theorem startAt_zero (ends : List Nat) : startAt ends 0 = 0 := rfl

theorem startAt_succ {ends : List Nat} {p : Nat} (hp : p < ends.length) :
    startAt ends (p + 1) = ends[p] := by
  rw [startAt, if_neg (Nat.succ_ne_zero p), Nat.add_sub_cancel, List.getElem?_eq_getElem hp,
    Option.getD_some]

namespace Ends

variable {n : Nat} {ends : List Nat}

theorem length_pos (h : Ends n ends) : 0 < ends.length := by
  cases ends with
  | nil => cases h.last
  | cons => exact Nat.succ_pos _

theorem getLastD_eq (h : Ends n ends) (fallback : Nat) : ends.getLastD fallback = n := by
  rw [List.getLastD_eq_getLast?, h.last, Option.getD_some]

/-- No partition ends behind the last one. -/
theorem le_of_mem (h : Ends n ends) {stop : Nat} (hstop : stop ∈ ends) : stop ≤ n := by
  obtain ⟨front, rfl⟩ := List.getLast?_eq_some_iff.mp h.last
  rcases List.mem_append.mp hstop with hfront | hlast
  · exact Nat.le_of_lt ((List.pairwise_append.mp h.increasing).2.2 stop hfront n (.head _))
  · exact Nat.le_of_eq (List.mem_singleton.mp hlast)

theorem increasing_from_zero (h : Ends n ends) : (0 :: ends).Pairwise (· < ·) :=
  List.pairwise_cons.mpr ⟨h.positive, h.increasing⟩

theorem singleton (hn : 0 < n) : Ends n [n] :=
  ⟨rfl, List.pairwise_singleton _ _, fun _ hstop => by rwa [List.mem_singleton.mp hstop]⟩

/-- A partition is added at the end. -/
theorem concat (h : Ends n ends) {m : Nat} (hm : n < m) : Ends m (ends ++ [m]) := by
  refine ⟨List.getLast?_concat, ?_, fun stop hstop => ?_⟩
  · rw [List.pairwise_append]
    refine ⟨h.increasing, List.pairwise_singleton _ _, fun stop hstop last hlast => ?_⟩
    rw [List.mem_singleton.mp hlast]
    exact Nat.lt_of_le_of_lt (h.le_of_mem hstop) hm
  · rcases List.mem_append.mp hstop with hstop | hstop
    · exact h.positive stop hstop
    · rw [List.mem_singleton.mp hstop]
      exact Nat.zero_lt_of_lt hm

theorem startAt_length (h : Ends n ends) : startAt ends ends.length = n := by
  have hlast := h.last
  rw [List.getLast?_eq_getElem?] at hlast
  rw [startAt, if_neg (Nat.ne_of_gt h.length_pos), hlast, Option.getD_some]

theorem startAt_lt (h : Ends n ends) {p : Nat} (hp : p < ends.length) :
    startAt ends p < startAt ends (p + 1) := by
  rw [startAt_succ hp]
  cases p with
  | zero => exact h.positive _ (List.getElem_mem hp)
  | succ p =>
      rw [startAt_succ (Nat.lt_of_succ_lt hp)]
      exact List.pairwise_iff_getElem.mp h.increasing p (p + 1) _ hp (Nat.lt_succ_self p)

theorem startAt_mono (h : Ends n ends) {p q : Nat} (hpq : p ≤ q) (hq : q ≤ ends.length) :
    startAt ends p ≤ startAt ends q := by
  induction q with
  | zero =>
      obtain rfl : p = 0 := Nat.le_zero.mp hpq
      exact Nat.le_refl _
  | succ q ih =>
      rcases Nat.lt_or_eq_of_le hpq with hlt | rfl
      · exact Nat.le_trans (ih (by omega) (by omega)) (Nat.le_of_lt (h.startAt_lt hq))
      · exact Nat.le_refl _

theorem startAt_le (h : Ends n ends) {p : Nat} (hp : p ≤ ends.length) : startAt ends p ≤ n := by
  rw [← h.startAt_length]
  exact h.startAt_mono hp (Nat.le_refl _)

/-- There are no more partitions than values. -/
theorem le_startAt (h : Ends n ends) {p : Nat} (hp : p ≤ ends.length) : p ≤ startAt ends p := by
  induction p with
  | zero => exact Nat.zero_le _
  | succ p ih => exact Nat.lt_of_le_of_lt (ih (by omega)) (h.startAt_lt hp)

theorem length_le (h : Ends n ends) : ends.length ≤ n :=
  Nat.le_trans (h.le_startAt (Nat.le_refl _)) (h.startAt_le (Nat.le_refl _))

theorem pos (h : Ends n ends) : 0 < n :=
  Nat.lt_of_lt_of_le h.length_pos h.length_le

/-- A position that starts no later than it lies is in a partition with room for it. -/
theorem lt_length_of_startAt_le (h : Ends n ends) {p i : Nat} (hp : p ≤ ends.length)
    (hle : startAt ends p ≤ i) (hi : i < n) : p < ends.length := by
  rcases Nat.lt_or_eq_of_le hp with hlt | rfl
  · exact hlt
  · rw [h.startAt_length] at hle
    omega

/-- The ends of all partitions but the last, which are stored. -/
theorem dropLast_nonDecreasing (h : Ends n ends) (hseveral : 1 < ends.length) (hn : n ≤ 2 ^ 32) :
    NonDecreasing ends.dropLast n where
  ne_nil := by
    rw [← List.length_pos_iff, List.length_dropLast]
    omega
  sorted := pairwise_le_of_lt (h.increasing.sublist (List.dropLast_sublist ends))
  below := by
    intro stop hstop
    obtain ⟨i, hi, rfl⟩ := List.mem_iff_getElem.mp hstop
    rw [List.length_dropLast] at hi
    rw [List.getElem_dropLast, ← startAt_succ (show i < ends.length by omega)]
    exact Nat.lt_of_lt_of_le (h.startAt_lt (show i + 1 < ends.length by omega))
      (h.startAt_le (by omega))
  univ_le := hn
  length_le := by
    have := h.length_le
    rw [List.length_dropLast]
    omega

end Ends

/-! ## Bounds -/

section Bounds

/-- The number after the last value before partition `p`; the first value for the first. -/
def baseAt (values ends : List Nat) (p : Nat) : Nat :=
  if p = 0 then values.headD 0 else values[startAt ends p - 1]?.getD 0 + 1

/-- The last value of partition `p`. -/
def upperAt (values ends : List Nat) (p : Nat) : Nat :=
  values[startAt ends (p + 1) - 1]?.getD 0

/-- The bounds of partition `p`. -/
def boundsAt (values ends : List Nat) (p : Nat) : Bounds :=
  ⟨startAt ends p, startAt ends (p + 1), baseAt values ends p, upperAt values ends p⟩

/-- The universe of the values of partition `p`, relative to its base. -/
def spanAt (values ends : List Nat) (p : Nat) : Nat :=
  upperAt values ends p - baseAt values ends p + 1

/-- The values of partition `p`, relative to its base. -/
def segment (values ends : List Nat) (p : Nat) : List Nat :=
  ((values.drop (startAt ends p)).take (startAt ends (p + 1) - startAt ends p)).map
    (· - baseAt values ends p)

theorem baseAt_succ (values ends : List Nat) (p : Nat) :
    baseAt values ends (p + 1) = upperAt values ends p + 1 := rfl

variable {values ends : List Nat} {p : Nat}

theorem upperAt_eq (h : Ends values.length ends) (hp : p < ends.length) :
    ∃ hlt : startAt ends (p + 1) - 1 < values.length,
      upperAt values ends p = values[startAt ends (p + 1) - 1] := by
  have := h.startAt_lt hp
  have := h.startAt_le (show p + 1 ≤ ends.length from hp)
  have hlt : startAt ends (p + 1) - 1 < values.length := by omega
  exact ⟨hlt, by rw [upperAt, List.getElem?_eq_getElem hlt, Option.getD_some]⟩

/-- The values of a partition and of later ones are not below its base. -/
theorem baseAt_le (h : Ends values.length ends) (hvalues : values.Pairwise (· < ·))
    (hp : p < ends.length) {i : Nat} (hstart : startAt ends p ≤ i) (hi : i < values.length) :
    baseAt values ends p ≤ values[i] := by
  cases p with
  | zero =>
      cases values with
      | nil => cases hi
      | cons first values =>
          exact getElem_le_getElem (pairwise_le_of_lt hvalues) (Nat.zero_le i) hi
  | succ p =>
      obtain ⟨hlt, heq⟩ := upperAt_eq h (Nat.lt_of_succ_lt hp)
      have := h.startAt_lt (Nat.lt_of_succ_lt hp)
      rw [baseAt_succ, heq]
      exact List.pairwise_iff_getElem.mp hvalues _ i hlt hi (by omega)

/-- The values of earlier partitions are. -/
theorem lt_baseAt (h : Ends values.length ends) (hvalues : values.Pairwise (· < ·))
    (hp : p < ends.length) {i : Nat} (hlt : i < startAt ends p) (hi : i < values.length) :
    values[i] < baseAt values ends p := by
  cases p with
  | zero => exact absurd hlt (Nat.not_lt_zero i)
  | succ p =>
      obtain ⟨hstop, heq⟩ := upperAt_eq h (Nat.lt_of_succ_lt hp)
      rw [baseAt_succ, heq]
      exact Nat.lt_succ_of_le (getElem_le_getElem (pairwise_le_of_lt hvalues) (by omega) hstop)

theorem le_upperAt (h : Ends values.length ends) (hvalues : values.Pairwise (· < ·))
    (hp : p < ends.length) {i : Nat} (hlt : i < startAt ends (p + 1)) (hi : i < values.length) :
    values[i] ≤ upperAt values ends p := by
  obtain ⟨hstop, heq⟩ := upperAt_eq h hp
  rw [heq]
  exact getElem_le_getElem (pairwise_le_of_lt hvalues) (by omega) hstop

theorem baseAt_le_upperAt (h : Ends values.length ends) (hvalues : values.Pairwise (· < ·))
    (hp : p < ends.length) : baseAt values ends p ≤ upperAt values ends p := by
  obtain ⟨hstop, heq⟩ := upperAt_eq h hp
  have := h.startAt_lt hp
  rw [heq]
  exact baseAt_le h hvalues hp (by omega) hstop

theorem upperAt_lt {univ : Nat} (h : Ends values.length ends) (hvalues : Ascending values univ)
    (hp : p < ends.length) : upperAt values ends p < univ := by
  obtain ⟨hstop, heq⟩ := upperAt_eq h hp
  rw [heq]
  exact hvalues.below _ (List.getElem_mem hstop)

/-- The bases lie in the universe, that behind the last partition included. -/
theorem baseAt_le_univ {univ : Nat} (h : Ends values.length ends) (hvalues : Ascending values univ)
    (hp : p ≤ ends.length) : baseAt values ends p ≤ univ := by
  cases p with
  | zero =>
      have := baseAt_le_upperAt h hvalues.increasing h.length_pos
      have := upperAt_lt h hvalues h.length_pos
      omega
  | succ p => exact upperAt_lt h hvalues hp

/-- The universes of the partitions lie behind one another. -/
theorem baseAt_add_spanAt (h : Ends values.length ends) (hvalues : values.Pairwise (· < ·))
    (hp : p < ends.length) : baseAt values ends p + spanAt values ends p =
      baseAt values ends (p + 1) := by
  have := baseAt_le_upperAt h hvalues hp
  rw [baseAt_succ, spanAt]
  omega

/-! ## Segments -/

theorem length_segment (h : Ends values.length ends) (hp : p < ends.length) :
    (segment values ends p).length = startAt ends (p + 1) - startAt ends p := by
  have := h.startAt_le (show p + 1 ≤ ends.length from hp)
  rw [segment, List.length_map, List.length_take, List.length_drop]
  omega

theorem getElem_segment (h : Ends values.length ends) (hp : p < ends.length) {i : Nat}
    (hi : i < (segment values ends p).length) :
    ∃ hlt : startAt ends p + i < values.length,
      (segment values ends p)[i] = values[startAt ends p + i] - baseAt values ends p := by
  have hlen := length_segment h hp
  have hstop := h.startAt_le (show p + 1 ≤ ends.length from hp)
  refine ⟨by omega, ?_⟩
  simp only [segment, List.getElem_map, List.getElem_take, List.getElem_drop]

/-- What is written of a partition is stored by every format. -/
theorem ascending_segment {univ : Nat} (h : Ends values.length ends)
    (hvalues : Ascending values univ) (hp : p < ends.length) :
    Ascending (segment values ends p) (spanAt values ends p) where
  ne_nil := by
    have := h.startAt_lt hp
    rw [← List.length_pos_iff, length_segment h hp]
    omega
  increasing := by
    rw [List.pairwise_iff_getElem]
    intro i j hi hj hij
    obtain ⟨hi', heqi⟩ := getElem_segment h hp hi
    obtain ⟨hj', heqj⟩ := getElem_segment h hp hj
    have := List.pairwise_iff_getElem.mp hvalues.increasing _ _ hi' hj' (by omega)
    have := baseAt_le h hvalues.increasing hp (Nat.le_add_right _ i) hi'
    rw [heqi, heqj]
    omega
  below := by
    intro v hv
    obtain ⟨i, hi, rfl⟩ := List.mem_iff_getElem.mp hv
    obtain ⟨hi', heq⟩ := getElem_segment h hp hi
    have hlen := length_segment h hp
    have := le_upperAt h hvalues.increasing hp (show startAt ends p + i < _ by omega) hi'
    rw [heq, spanAt]
    omega
  univ_le := by
    have := upperAt_lt h hvalues hp
    have := hvalues.univ_le
    rw [spanAt]
    omega

/-! ## Upper bounds -/

/-- The table of upper bounds: the first value and the last value of each partition. -/
def uppers (values ends : List Nat) : List Nat :=
  values.headD 0 :: (List.range ends.length).map (upperAt values ends)

@[simp] theorem length_uppers : (uppers values ends).length = ends.length + 1 := by
  rw [uppers, List.length_cons, List.length_map, List.length_range]

theorem uppers_succ (hp : p < ends.length) :
    (uppers values ends)[p + 1]? = some (upperAt values ends p) := by
  rw [uppers, List.getElem?_cons_succ, List.getElem?_map, List.getElem?_range hp, Option.map_some]

theorem getElem_uppers_succ (hp : p < ends.length) (hi : p + 1 < (uppers values ends).length) :
    (uppers values ends)[p + 1] = upperAt values ends p := by
  have hentry : (uppers values ends)[p + 1]? = some (upperAt values ends p) := uppers_succ hp
  rw [List.getElem?_eq_getElem hi] at hentry
  exact Option.some.inj hentry

theorem uppers_nonDecreasing {univ : Nat} (h : Ends values.length ends)
    (hvalues : Ascending values univ) : NonDecreasing (uppers values ends) univ := by
  have hfirst : ∀ p, p < ends.length → values.headD 0 ≤ upperAt values ends p := by
    intro p hp
    obtain ⟨hlt, heq⟩ := upperAt_eq h hp
    rw [heq]
    exact baseAt_le h hvalues.increasing h.length_pos (Nat.zero_le _) hlt
  refine ⟨List.cons_ne_nil _ _, ?_, ?_, hvalues.univ_le, ?_⟩
  · rw [uppers, List.pairwise_cons]
    refine ⟨fun v hv => ?_, ?_⟩
    · obtain ⟨p, hp, rfl⟩ := List.mem_map.mp hv
      exact hfirst p (List.mem_range.mp hp)
    · rw [List.pairwise_map]
      refine (List.pairwise_lt_range).imp_of_mem fun {p q} hp hq hpq => ?_
      have hq' := List.mem_range.mp hq
      obtain ⟨hlt, heq⟩ := upperAt_eq h (List.mem_range.mp hp)
      rw [heq]
      exact le_upperAt h hvalues.increasing hq' (by
        have := h.startAt_mono (show p + 1 ≤ q + 1 by omega) hq'
        have := h.startAt_lt (List.mem_range.mp hp)
        omega) hlt
  · rw [uppers, List.forall_mem_cons]
    refine ⟨?_, fun v hv => ?_⟩
    · exact Nat.lt_of_le_of_lt (hfirst 0 h.length_pos) (upperAt_lt h hvalues h.length_pos)
    · obtain ⟨p, hp, rfl⟩ := List.mem_map.mp hv
      exact upperAt_lt h hvalues (List.mem_range.mp hp)
  · have := h.length_le
    have := hvalues.length_le
    have := hvalues.univ_le
    rw [length_uppers]
    omega

end Bounds

/-! ## Uniform partitions -/

theorem length_uniformEnds (log n : Nat) :
    (uniformEnds log n).length = (n + (2 ^ log - 1)) / 2 ^ log := by
  rw [uniformEnds, List.length_map, List.length_range]

theorem getElem_uniformEnds {log n p : Nat} (hp : p < (uniformEnds log n).length) :
    (uniformEnds log n)[p] = min ((p + 1) * 2 ^ log) n := by
  simp only [uniformEnds, List.getElem_map, List.getElem_range]

/-- Every uniform partition but the last is full. -/
theorem lt_of_lt_length_uniformEnds {log n p : Nat} (hp : p < (uniformEnds log n).length) :
    p * 2 ^ log < n := by
  have hpow := Nat.two_pow_pos log
  rw [length_uniformEnds, Nat.lt_div_iff_mul_lt hpow] at hp
  omega

theorem startAt_uniformEnds {log n p : Nat} (hp : p < (uniformEnds log n).length) :
    startAt (uniformEnds log n) p = p * 2 ^ log := by
  cases p with
  | zero => rw [startAt_zero, Nat.zero_mul]
  | succ p =>
      have := lt_of_lt_length_uniformEnds hp
      rw [startAt_succ (Nat.lt_of_succ_lt hp), getElem_uniformEnds]
      omega

theorem uniformEnds_ends {log n : Nat} (hn : 0 < n) : Ends n (uniformEnds log n) := by
  have hpow := Nat.two_pow_pos log
  have hlen : 0 < (uniformEnds log n).length := by
    rw [length_uniformEnds]
    exact Nat.div_pos (by omega) hpow
  refine ⟨?_, ?_, ?_⟩
  · have hlast : n ≤ (uniformEnds log n).length * 2 ^ log := by
      have hdiv := Nat.div_add_mod (n + (2 ^ log - 1)) (2 ^ log)
      have hmod := Nat.mod_lt (n + (2 ^ log - 1)) hpow
      rw [Nat.mul_comm] at hdiv
      rw [length_uniformEnds]
      omega
    have hindex : (uniformEnds log n).length - 1 < (uniformEnds log n).length := by omega
    rw [List.getLast?_eq_getElem?, List.getElem?_eq_getElem hindex, getElem_uniformEnds,
      show (uniformEnds log n).length - 1 + 1 = (uniformEnds log n).length by omega,
      Nat.min_eq_right hlast]
  · rw [List.pairwise_iff_getElem]
    intro i j hi hj hij
    have hlt := lt_of_lt_length_uniformEnds hj
    have hmul := Nat.mul_le_mul_right (2 ^ log) (show i + 1 ≤ j by omega)
    have hnext := Nat.add_one_mul j (2 ^ log)
    rw [getElem_uniformEnds, getElem_uniformEnds]
    omega
  · intro stop hstop
    obtain ⟨p, hp, rfl⟩ := List.mem_iff_getElem.mp hstop
    have hnext := Nat.add_one_mul p (2 ^ log)
    rw [getElem_uniformEnds]
    omega

end Partitioned
end Postings
