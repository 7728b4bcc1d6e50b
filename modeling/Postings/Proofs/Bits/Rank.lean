import Mathlib.Data.Nat.Count
import Postings.Bits.Scan

/-!
# What the scans find

The *rank* of a position is how many positions before it hold a given bit.  Every
scan of a bit string is determined by ranks: the `k`-th set bit at or after `pos`
is the set bit whose rank is that of `pos` plus `k`, and the number of set bits in
a range is a difference of ranks.

The scans go through words, so the facts about words come first.  A run of words
is read through a predicate on positions that agrees with them; that the first
word may be cut, and that unset bits are sought in complemented words, only
changes the predicate.
-/

namespace Postings

/-! ## Set bits of a word -/

theorem length_filter_range (p : Nat → Bool) (m : Nat) :
    ((List.range m).filter p).length = Nat.count (fun i => p i = true) m := by
  induction m with
  | zero => simp
  | succ m ih =>
      rw [List.range_succ, List.filter_append, List.length_append, ih, Nat.count_succ]
      cases h : p m <;> simp [h]

/-- The entries of a filtered range are numbered by their ranks. -/
theorem getElem?_filter_range {p : Nat → Bool} {m k j : Nat} :
    ((List.range m).filter p)[k]? = some j ↔
      j < m ∧ p j = true ∧ Nat.count (fun i => p i = true) j = k := by
  induction m with
  | zero => simp
  | succ m ih =>
      have hmono : j < m → Nat.count (fun i => p i = true) j ≤ Nat.count (fun i => p i = true) m :=
        fun h => Nat.count_monotone _ (Nat.le_of_lt h)
      rw [List.range_succ, List.filter_append, List.getElem?_append, length_filter_range]
      by_cases hk : k < Nat.count (fun i => p i = true) m
      · rw [if_pos hk, ih]
        constructor
        · rintro ⟨hj, hp, hc⟩
          exact ⟨by omega, hp, hc⟩
        · rintro ⟨hj, hp, hc⟩
          refine ⟨?_, hp, hc⟩
          have : j ≠ m := by
            rintro rfl
            omega
          omega
      · rw [if_neg hk]
        constructor
        · intro h
          cases hm : p m with
          | false => simp [hm] at h
          | true =>
              simp only [List.filter_cons, hm, if_true, List.filter_nil,
                List.getElem?_singleton] at h
              split at h
              · obtain rfl := Option.some.inj h
                exact ⟨by omega, hm, by omega⟩
              · cases h
        · rintro ⟨hj, hp, hc⟩
          have hjm : j = m := by
            by_contra hne
            have hlt : j < m := by omega
            have := Nat.count_strict_mono (p := fun i => p i = true) hp hlt
            omega
          subst hjm
          simp [hp, hc]

theorem popCount_eq (word : Nat) :
    popCount word = Nat.count (fun i => word.testBit i = true) 64 :=
  length_filter_range _ _

theorem selectInWord_eq_some {word k j : Nat} :
    selectInWord word k = some j ↔
      j < 64 ∧ word.testBit j = true ∧ Nat.count (fun i => word.testBit i = true) j = k :=
  getElem?_filter_range

theorem selectInWord_eq_none {word k : Nat} : selectInWord word k = none ↔ popCount word ≤ k := by
  rw [selectInWord, List.getElem?_eq_none_iff, popCount]

/-- The lowest set bit stands before those that are above it. -/
theorem ones_lowest {t : Nat} (ht : t < 64) (m : Nat) :
    ones (2 ^ t * (2 * m + 1)) = t :: ones (2 ^ (t + 1) * m) := by
  have hbelow : ∀ j < t, (2 ^ t * (2 * m + 1)).testBit j = false := by
    intro j hj
    rw [Nat.testBit_two_pow_mul, decide_eq_false (Nat.not_le.mpr hj), Bool.false_and]
  have hlowest : (2 ^ t * (2 * m + 1)).testBit t = true := by
    rw [Nat.testBit_two_pow_mul, Nat.sub_self, Nat.testBit_zero]
    simp
  have habove : ∀ i, (2 ^ t * (2 * m + 1)).testBit (t + 1 + i) =
      (2 ^ (t + 1) * m).testBit (t + 1 + i) := by
    intro i
    rw [Nat.testBit_two_pow_mul, Nat.testBit_two_pow_mul, Nat.add_sub_cancel_left,
      show t + 1 + i - t = i + 1 by omega, Nat.testBit_succ, show (2 * m + 1) / 2 = m by omega,
      decide_eq_true (show t ≤ t + 1 + i by omega),
      decide_eq_true (show t + 1 ≤ t + 1 + i by omega)]
  have hclear : ∀ j ≤ t, (2 ^ (t + 1) * m).testBit j = false := by
    intro j hj
    rw [Nat.testBit_two_pow_mul, decide_eq_false (by omega), Bool.false_and]
  have hnone : (List.range t).filter (2 ^ t * (2 * m + 1)).testBit = [] := by
    simpa [List.filter_eq_nil_iff] using hbelow
  have hgone : (List.range (t + 1)).filter (2 ^ (t + 1) * m).testBit = [] := by
    simpa [List.filter_eq_nil_iff, Nat.lt_succ_iff] using hclear
  have hsplit : List.range 64 = List.range (t + 1) ++ (List.range (63 - t)).map (t + 1 + ·) := by
    rw [← List.range_add, show t + 1 + (63 - t) = 64 by omega]
  rw [ones, ones, hsplit, List.filter_append, List.filter_append, hgone, List.range_succ,
    List.filter_append, hnone, List.filter_singleton, hlowest]
  simp only [List.filter_map, Function.comp_def, habove]
  rfl

/-- Taking one away changes the lowest set bit and the bits beneath it. -/
theorem and_pred (k m : Nat) :
    2 ^ k * (2 * m + 1) &&& (2 ^ k * (2 * m + 1) - 1) = 2 ^ (k + 1) * m := by
  have hpred : 2 ^ k * (2 * m + 1) - 1 = 2 ^ k * (2 * m) + (2 ^ k - 1) := by
    have := Nat.two_pow_pos k
    rw [Nat.mul_succ]
    omega
  apply Nat.eq_of_testBit_eq
  intro j
  rw [hpred, Nat.testBit_and, Nat.testBit_two_pow_mul, Nat.testBit_two_pow_mul,
    Nat.testBit_two_pow_mul_add _ (Nat.sub_lt (Nat.two_pow_pos k) Nat.one_pos)]
  rcases Nat.lt_trichotomy j k with hj | rfl | hj
  · rw [decide_eq_false (Nat.not_le.mpr hj), decide_eq_false (show ¬ k + 1 ≤ j by omega)]
    rfl
  · rw [if_neg (Nat.lt_irrefl j), Nat.sub_self, Nat.testBit_zero, Nat.testBit_zero,
      decide_eq_false (show ¬ j + 1 ≤ j by omega)]
    simp
  · obtain ⟨i, rfl⟩ : ∃ i, j = k + 1 + i := ⟨j - (k + 1), by omega⟩
    rw [if_neg (by omega), show k + 1 + i - k = i + 1 by omega, Nat.add_sub_cancel_left,
      Nat.testBit_succ, Nat.testBit_succ, show (2 * m + 1) / 2 = m by omega,
      show 2 * m / 2 = m by omega, decide_eq_true (show k ≤ k + 1 + i by omega),
      decide_eq_true (show k + 1 ≤ k + 1 + i by omega), Bool.true_and, Bool.and_self]

theorem count_congr_below {p q : Nat → Prop} [DecidablePred p] [DecidablePred q] {n : Nat}
    (h : ∀ i, i < n → (p i ↔ q i)) : Nat.count p n = Nat.count q n :=
  Nat.le_antisymm (Nat.count_mono_left fun i hi => (h i hi).mp)
    (Nat.count_mono_left fun i hi => (h i hi).mpr)

namespace BitString

/-! ## Runs of words -/

/-- Ranks within a word are those of the number it holds. -/
theorem count_within_word {b : Nat → Bool} {w current : Nat}
    (h : ∀ j, j < 64 → b (64 * w + j) = current.testBit j) {j : Nat} (hj : j ≤ 64) :
    Nat.count (fun i => b i = true) (64 * w + j) =
      Nat.count (fun i => b i = true) (64 * w) +
        Nat.count (fun i => current.testBit i = true) j := by
  rw [Nat.count_add]
  congr 1
  exact count_congr_below fun i hi => by rw [h i (by omega)]

/-- The scan of a run of words finds what a predicate that agrees with the words
says.  Of the first word only the bits of `current` count. -/
theorem selectWords_eq_some {word : Nat → Nat} {b : Nat → Bool} {left : Nat} :
    ∀ {w current k p : Nat},
      (∀ j, j < 64 → b (64 * w + j) = current.testBit j) →
      (∀ u j, w < u → j < 64 → b (64 * u + j) = (word u).testBit j) →
      (selectWords word w current k left = some p ↔
        64 * w ≤ p ∧ p < 64 * (w + left + 1) ∧ b p = true ∧
          Nat.count (fun i => b i = true) p = Nat.count (fun i => b i = true) (64 * w) + k) := by
  induction left with
  | zero =>
      intro w current k p hfirst _
      rw [selectWords]
      constructor
      · intro h
        obtain ⟨j, hj, rfl⟩ := Option.map_eq_some_iff.mp h
        obtain ⟨hlt, hbit, hcount⟩ := selectInWord_eq_some.mp hj
        refine ⟨by omega, by omega, by rw [hfirst j hlt, hbit], ?_⟩
        rw [count_within_word hfirst (by omega), hcount]
      · rintro ⟨hge, hlt, hbit, hcount⟩
        obtain ⟨j, rfl⟩ := Nat.exists_eq_add_of_le hge
        have hj : j < 64 := by omega
        rw [count_within_word hfirst (by omega)] at hcount
        refine Option.map_eq_some_iff.mpr
          ⟨j, selectInWord_eq_some.mpr ⟨hj, ?_, by omega⟩, rfl⟩
        rw [← hfirst j hj, hbit]
  | succ left ih =>
      intro w current k p hfirst hrest
      have hword : Nat.count (fun i => b i = true) (64 * (w + 1)) =
          Nat.count (fun i => b i = true) (64 * w) + popCount current := by
        rw [popCount_eq, Nat.mul_succ, count_within_word hfirst (by omega)]
      rw [selectWords]
      cases hsel : selectInWord current k with
      | some j =>
          obtain ⟨hlt, hbit, hcount⟩ := selectInWord_eq_some.mp hsel
          have hj : Nat.count (fun i => b i = true) (64 * w + j) =
              Nat.count (fun i => b i = true) (64 * w) + k := by
            rw [count_within_word hfirst (by omega), hcount]
          constructor
          · intro h
            obtain rfl := Option.some.inj h
            exact ⟨by omega, by omega, by rw [hfirst j hlt, hbit], hj⟩
          · rintro ⟨_, _, hb, hp⟩
            rw [Nat.count_injective (p := fun i => b i = true) hb
              (by rw [hfirst j hlt, hbit]) (hp.trans hj.symm)]
      | none =>
          have hk : popCount current ≤ k := selectInWord_eq_none.mp hsel
          rw [ih (fun j hj => hrest (w + 1) j (by omega) hj)
            (fun u j hu hj => hrest u j (by omega) hj)]
          constructor
          · rintro ⟨hge, hlt, hb, hp⟩
            exact ⟨by omega, by omega, hb, by omega⟩
          · rintro ⟨hge, hlt, hb, hp⟩
            refine ⟨?_, by omega, hb, by omega⟩
            by_contra hlow
            have := Nat.count_strict_mono (p := fun i => b i = true) hb
              (show p < 64 * (w + 1) by omega)
            omega

/-! ## Ranks -/

/-- How many positions before `pos` hold the bit `b`. -/
def rank (v : BitString) (b : Bool) (pos : Nat) : Nat :=
  Nat.count (fun i => v.bit i = b) pos

theorem rank_succ (v : BitString) (b : Bool) (pos : Nat) :
    v.rank b (pos + 1) = v.rank b pos + if v.bit pos = b then 1 else 0 :=
  Nat.count_succ _ _

/-- Every position holds one of the two bits. -/
theorem rank_true_add_rank_false (v : BitString) (pos : Nat) :
    v.rank true pos + v.rank false pos = pos := by
  induction pos with
  | zero => simp [rank]
  | succ pos ih =>
      rw [rank_succ, rank_succ]
      cases v.bit pos <;> simp <;> omega

/-- Two ranks are equal when the bit does not occur in between. -/
theorem rank_eq_iff {v : BitString} {b : Bool} {p q : Nat} (h : p ≤ q) :
    v.rank b q = v.rank b p ↔ ∀ i, p ≤ i → i < q → v.bit i ≠ b := by
  obtain ⟨d, rfl⟩ := Nat.exists_eq_add_of_le h
  rw [rank, rank, Nat.count_add, Nat.add_eq_left, Nat.count_iff_forall_not]
  constructor
  · intro hnone i hi hlt
    obtain ⟨j, rfl⟩ := Nat.exists_eq_add_of_le hi
    exact hnone j (by omega)
  · intro hnone j hj
    exact hnone (p + j) (by omega) (by omega)

/-- Ranks counted from a position on. -/
theorem count_from (v : BitString) (b : Bool) (pos : Nat) {q : Nat} (h : pos ≤ q) :
    Nat.count (fun i => (decide (pos ≤ i) && (v.bit i == b)) = true) q + v.rank b pos =
      v.rank b q := by
  obtain ⟨d, rfl⟩ := Nat.exists_eq_add_of_le h
  have hzero : Nat.count (fun i => (decide (pos ≤ i) && (v.bit i == b)) = true) pos = 0 := by
    rw [Nat.count_iff_forall_not]
    intro m hm
    simp [Nat.not_le.mpr hm]
  rw [rank, rank, Nat.count_add, hzero, Nat.count_add, Nat.zero_add, Nat.add_comm]
  congr 1
  exact count_congr_below fun i _ => by simp

/-! ## Forward scans -/

/-- The scan behind both selections, over words that hold the positions of `b`. -/
theorem selectFrom_eq_some (v : BitString) (b : Bool) {word : Nat → Nat}
    (hword : ∀ u j, j < 64 → (word u).testBit j = (v.bit (64 * u + j) == b)) {pos k p : Nat} :
    v.selectFrom word pos k = some p ↔
      pos ≤ p ∧ p < v.size ∧ v.bit p = b ∧ v.rank b p = v.rank b pos + k := by
  have hwords := v.words_size
  by_cases hsize : v.size ≤ pos
  · rw [selectFrom, if_pos hsize]
    constructor
    · intro h
      cases h
    · rintro ⟨hge, hlt, -⟩
      omega
  · have hfirst : ∀ j, j < 64 →
        (decide (pos ≤ 64 * (pos / 64) + j) && (v.bit (64 * (pos / 64) + j) == b)) =
          (((word (pos / 64)) >>> (pos % 64)) <<< (pos % 64)).testBit j := by
      intro j hj
      rw [Nat.testBit_shiftLeft, Nat.testBit_shiftRight]
      by_cases hle : pos % 64 ≤ j
      · rw [show pos % 64 + (j - pos % 64) = j by omega, hword _ j hj]
        simp [hle, show pos ≤ 64 * (pos / 64) + j by omega]
      · simp [hle, show ¬ pos ≤ 64 * (pos / 64) + j by omega]
    have hrest : ∀ u j, pos / 64 < u → j < 64 →
        (decide (pos ≤ 64 * u + j) && (v.bit (64 * u + j) == b)) = (word u).testBit j := by
      intro u j hu hj
      rw [hword u j hj]
      simp [show pos ≤ 64 * u + j by omega]
    have hzero : Nat.count (fun i => (decide (pos ≤ i) && (v.bit i == b)) = true)
        (64 * (pos / 64)) = 0 := by
      rw [Nat.count_iff_forall_not]
      intro m hm
      simp [show ¬ pos ≤ m by omega]
    rw [selectFrom, if_neg hsize, Option.filter_eq_some_iff,
      selectWords_eq_some (b := fun i => decide (pos ≤ i) && (v.bit i == b)) hfirst hrest, hzero,
      decide_eq_true_eq, Bool.and_eq_true, decide_eq_true_eq, beq_iff_eq]
    constructor
    · rintro ⟨⟨_, _, ⟨hge, hb⟩, hcount⟩, hlt⟩
      have hfrom := v.count_from b pos hge
      exact ⟨hge, hlt, hb, by omega⟩
    · rintro ⟨hge, hlt, hb, hrank⟩
      have hfrom := v.count_from b pos hge
      exact ⟨⟨by omega, by omega, ⟨hge, hb⟩, by omega⟩, hlt⟩

/-- The `k`-th set bit at or after a position is the one whose rank is greater by `k`. -/
theorem selectOne_eq_some {v : BitString} {pos k p : Nat} :
    v.selectOne pos k = some p ↔
      pos ≤ p ∧ p < v.size ∧ v.bit p = true ∧ v.rank true p = v.rank true pos + k := by
  apply selectFrom_eq_some
  intro u j hj
  rw [testBit_wordAt v hj, beq_true]

/-- The same for unset bits. -/
theorem selectZero_eq_some {v : BitString} {pos k p : Nat} :
    v.selectZero pos k = some p ↔
      pos ≤ p ∧ p < v.size ∧ v.bit p = false ∧ v.rank false p = v.rank false pos + k := by
  apply selectFrom_eq_some
  intro u j hj
  rw [show 2 ^ 64 - 1 - wordAt v.words u = 2 ^ 64 - (wordAt v.words u + 1) by omega,
    Nat.testBit_two_pow_sub_succ (wordAt_lt _ _), testBit_wordAt v hj]
  simp [hj]

/-- The next set bit is set and has none between it and the start. -/
theorem nextOne_eq_some {v : BitString} {pos p : Nat} :
    v.nextOne pos = some p ↔
      pos ≤ p ∧ v.bit p = true ∧ ∀ i, pos ≤ i → i < p → v.bit i = false := by
  rw [nextOne, selectOne_eq_some]
  constructor
  · rintro ⟨hge, _, hb, hrank⟩
    have hnone := (rank_eq_iff hge).mp hrank
    exact ⟨hge, hb, fun i hi hlt => Bool.eq_false_iff.mpr (hnone i hi hlt)⟩
  · rintro ⟨hge, hb, hnone⟩
    refine ⟨hge, ?_, hb, (rank_eq_iff hge).mpr fun i hi hlt => by simp [hnone i hi hlt]⟩
    by_contra hlt
    rw [bit_eq_false_of_size_le v (by omega)] at hb
    cases hb

/-! ## Backward scans -/

theorem getLast?_filter_range {p : Nat → Bool} {m j : Nat} :
    ((List.range m).filter p).getLast? = some j ↔
      j < m ∧ p j = true ∧ ∀ i, j < i → i < m → p i = false := by
  induction m with
  | zero => simp
  | succ m ih =>
      rw [List.range_succ, List.filter_append]
      cases hm : p m with
      | true =>
          simp only [List.filter_cons, hm, if_true, List.filter_nil, List.getLast?_concat,
            Option.some.injEq]
          constructor
          · rintro rfl
            exact ⟨by omega, hm, fun i hi hlt => by omega⟩
          · rintro ⟨hj, _, hlast⟩
            by_contra hne
            rw [hlast m (by omega) (by omega)] at hm
            cases hm
      | false =>
          simp only [List.filter_cons, hm, Bool.false_eq_true, if_false, List.filter_nil,
            List.append_nil, ih]
          constructor
          · rintro ⟨hj, hp, hlast⟩
            refine ⟨by omega, hp, fun i hi hlt => ?_⟩
            rcases Nat.lt_succ_iff_lt_or_eq.mp hlt with h | rfl
            · exact hlast i hi h
            · exact hm
          · rintro ⟨hj, hp, hlast⟩
            refine ⟨?_, hp, fun i hi hlt => hlast i hi (by omega)⟩
            rcases Nat.lt_succ_iff_lt_or_eq.mp hj with h | rfl
            · exact h
            · rw [hm] at hp
              cases hp

theorem lastOne_eq_some {word j : Nat} :
    lastOne word = some j ↔
      j < 64 ∧ word.testBit j = true ∧ ∀ i, j < i → i < 64 → word.testBit i = false :=
  getLast?_filter_range

theorem lastOne_eq_none {word : Nat} :
    lastOne word = none ↔ ∀ i, i < 64 → word.testBit i = false := by
  rw [lastOne, List.getLast?_eq_none_iff, ones, List.filter_eq_nil_iff]
  simp

/-- The backward scan of words finds the last position of a predicate that agrees
with them. -/
theorem lastWords_eq_some {word : Nat → Nat} {b : Nat → Bool} {w : Nat} :
    ∀ {current p : Nat},
      (∀ j, j < 64 → b (64 * w + j) = current.testBit j) →
      (∀ u j, u < w → j < 64 → b (64 * u + j) = (word u).testBit j) →
      (lastWords word w current = some p ↔
        p < 64 * (w + 1) ∧ b p = true ∧ ∀ i, p < i → i < 64 * (w + 1) → b i = false) := by
  induction w with
  | zero =>
      intro current p hlast _
      rw [lastWords, lastOne_eq_some]
      simp only [Nat.mul_zero, Nat.zero_add] at hlast
      constructor
      · rintro ⟨hp, hbit, hnone⟩
        exact ⟨by omega, by rw [hlast p hp, hbit],
          fun i hi hlt => by rw [hlast i (by omega), hnone i hi (by omega)]⟩
      · rintro ⟨hp, hbit, hnone⟩
        exact ⟨by omega, by rw [← hlast p (by omega), hbit],
          fun i hi hlt => by rw [← hlast i hlt, hnone i hi (by omega)]⟩
  | succ w ih =>
      intro current p hlast hrest
      rw [lastWords]
      cases hsel : lastOne current with
      | some j =>
          obtain ⟨hj, hbit, hnone⟩ := lastOne_eq_some.mp hsel
          have habove : ∀ i, 64 * (w + 1) + j < i → i < 64 * (w + 1 + 1) → b i = false := by
            intro i hi hlt
            have := hlast (i - 64 * (w + 1)) (by omega)
            rw [show 64 * (w + 1) + (i - 64 * (w + 1)) = i by omega] at this
            rw [this, hnone _ (by omega) (by omega)]
          constructor
          · intro h
            obtain rfl := Option.some.inj h
            exact ⟨by omega, by rw [hlast j hj, hbit], habove⟩
          · rintro ⟨hp, hb, hp'⟩
            have h1 : ¬ p < 64 * (w + 1) + j := by
              intro hlt
              have := hp' (64 * (w + 1) + j) hlt (by omega)
              rw [hlast j hj, hbit] at this
              cases this
            have h2 : ¬ 64 * (w + 1) + j < p := by
              intro hlt
              rw [habove p hlt hp] at hb
              cases hb
            exact congrArg some (show 64 * (w + 1) + j = p by omega)
      | none =>
          have hnone := lastOne_eq_none.mp hsel
          have hclear : ∀ i, 64 * (w + 1) ≤ i → i < 64 * (w + 1 + 1) → b i = false := by
            intro i hi hlt
            have := hlast (i - 64 * (w + 1)) (by omega)
            rw [show 64 * (w + 1) + (i - 64 * (w + 1)) = i by omega] at this
            rw [this, hnone _ (by omega)]
          rw [ih (fun j hj => hrest w j (by omega) hj)
            (fun u j hu hj => hrest u j (by omega) hj)]
          constructor
          · rintro ⟨hp, hb, hp'⟩
            refine ⟨by omega, hb, fun i hi hlt => ?_⟩
            by_cases h : i < 64 * (w + 1)
            · exact hp' i hi h
            · exact hclear i (by omega) hlt
          · rintro ⟨hp, hb, hp'⟩
            refine ⟨?_, hb, fun i hi hlt => hp' i hi (by omega)⟩
            by_contra h
            rw [hclear p (by omega) hp] at hb
            cases hb

/-- The previous set bit is set and has none between it and the start. -/
theorem prevOne_eq_some {v : BitString} {pos p : Nat} :
    v.prevOne pos = some p ↔
      p < pos ∧ v.bit p = true ∧ ∀ i, p < i → i < pos → v.bit i = false := by
  have hend : ∀ i, min pos v.size ≤ i → i < pos → v.bit i = false := fun i hi hlt =>
    bit_eq_false_of_size_le v (by omega)
  by_cases hzero : min pos v.size = 0
  · rw [prevOne, if_pos hzero]
    constructor
    · intro h
      cases h
    · rintro ⟨hp, hb, -⟩
      rw [hend p (by omega) hp] at hb
      cases hb
  · have hlast : ∀ j, j < 64 →
        (decide (64 * ((min pos v.size - 1) / 64) + j < min pos v.size) &&
          v.bit (64 * ((min pos v.size - 1) / 64) + j)) =
        (wordAt v.words ((min pos v.size - 1) / 64) %
          2 ^ ((min pos v.size - 1) % 64 + 1)).testBit j := by
      intro j hj
      rw [Nat.testBit_mod_two_pow, testBit_wordAt v hj]
      congr 1
      exact decide_eq_decide.mpr (by omega)
    have hrest : ∀ u j, u < (min pos v.size - 1) / 64 → j < 64 →
        (decide (64 * u + j < min pos v.size) && v.bit (64 * u + j)) =
          (wordAt v.words u).testBit j := by
      intro u j hu hj
      rw [testBit_wordAt v hj]
      simp only [show 64 * u + j < min pos v.size by omega, decide_true, Bool.true_and]
    rw [prevOne, if_neg hzero,
      lastWords_eq_some (b := fun i => decide (i < min pos v.size) && v.bit i) hlast hrest]
    simp only [Bool.and_eq_true, decide_eq_true_eq, Bool.and_eq_false_iff, decide_eq_false_iff_not]
    constructor
    · rintro ⟨_, ⟨hlt, hb⟩, hnone⟩
      refine ⟨by omega, hb, fun i hi hip => ?_⟩
      by_cases h : i < min pos v.size
      · exact (hnone i hi (by omega)).resolve_left (by omega)
      · exact hend i (by omega) hip
    · rintro ⟨hp, hb, hnone⟩
      have hlt : p < min pos v.size := by
        by_contra h
        rw [hend p (by omega) hp] at hb
        cases hb
      exact ⟨by omega, ⟨hlt, hb⟩, fun i hi _ => by
        by_cases h : i < min pos v.size
        · exact .inr (hnone i hi (by omega))
        · exact .inl h⟩

/-! ## Counting -/

theorem testBit_wordWithin (v : BitString) (start stop w : Nat) {j : Nat} (hj : j < 64) :
    (v.wordWithin start stop w).testBit j =
      (decide (start ≤ 64 * w + j) && (decide (64 * w + j < stop) && v.bit (64 * w + j))) := by
  simp only [wordWithin, Nat.testBit_shiftLeft, Nat.testBit_shiftRight, Nat.testBit_mod_two_pow,
    ge_iff_le]
  by_cases hle : start - 64 * w ≤ j
  · rw [show start - 64 * w + (j - (start - 64 * w)) = j by omega, testBit_wordAt v hj]
    simp only [hle, show start ≤ 64 * w + j by omega, decide_true, Bool.true_and]
    congr 1
    exact decide_eq_decide.mpr (by omega)
  · simp [hle, show ¬ start ≤ 64 * w + j by omega]

/-- The set bits of the first words of a range. -/
theorem foldl_popCount (v : BitString) (start stop w count : Nat) :
    (List.range count).foldl
      (fun total i => total + popCount (v.wordWithin start stop (w + i))) 0 +
      Nat.count (fun i => (decide (start ≤ i) && (decide (i < stop) && v.bit i)) = true) (64 * w) =
    Nat.count (fun i => (decide (start ≤ i) && (decide (i < stop) && v.bit i)) = true)
      (64 * (w + count)) := by
  induction count with
  | zero => simp
  | succ count ih =>
      rw [List.range_succ, List.foldl_append, List.foldl_cons, List.foldl_nil, popCount_eq,
        show 64 * (w + (count + 1)) = 64 * (w + count) + 64 by omega,
        count_within_word (fun j hj => (testBit_wordWithin v start stop (w + count) hj).symm)
          (Nat.le_refl 64), ← ih]
      omega

/-- The number of set bits in a range is a difference of ranks. -/
theorem countOnes_add_rank (v : BitString) {start stop : Nat} (h : start ≤ stop) :
    v.countOnes start stop + v.rank true start = v.rank true stop := by
  have hfold := foldl_popCount v start stop (start / 64) ((stop + 63) / 64 - start / 64)
  have hbefore : Nat.count (fun i => (decide (start ≤ i) && (decide (i < stop) && v.bit i)) = true)
      (64 * (start / 64)) = 0 := by
    rw [Nat.count_iff_forall_not]
    intro m hm
    simp [show ¬ start ≤ m by omega]
  have hafter : Nat.count (fun i => (decide (start ≤ i) && (decide (i < stop) && v.bit i)) = true)
      (64 * (start / 64 + ((stop + 63) / 64 - start / 64))) =
      Nat.count (fun i => (decide (start ≤ i) && (v.bit i == true)) = true) stop := by
    obtain ⟨d, hd⟩ := Nat.exists_eq_add_of_le
      (show stop ≤ 64 * (start / 64 + ((stop + 63) / 64 - start / 64)) by omega)
    rw [hd, Nat.count_add, (Nat.count_iff_forall_not (n := d)).mpr, Nat.add_zero]
    · exact count_congr_below fun i hi => by simp [hi]
    · intro m _
      simp
  have hfrom := v.count_from true start h
  rw [countOnes]
  omega

end BitString
end Postings
