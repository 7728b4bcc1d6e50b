import Postings.Proofs.Sequence.Law
import Postings.Sequence.FixedWidth

/-!
# Fixed width keeps its lists

A cursor of fixed width reads any value, so it follows the list as soon as every
value reads right.  The search by halving keeps what is before its range below the
bound and what is behind it not below, and so ends at the count of smaller values.
-/

namespace Postings
namespace FixedWidth

open SequenceCursor BitString

/-! ## Writing -/

/-- The check of a list accepts what fits. -/
theorem checkValues_eq_ok {values : List Nat} {univ : Nat} :
    checkValues values univ = .ok () ↔
      values ≠ [] ∧ values.Pairwise (· ≤ ·) ∧ (∀ v ∈ values, v < univ) ∧
        ∀ v ∈ values, v < 2 ^ width := by
  refine check_bind_eq_ok.trans ?_
  rw [checkArgument_eq_ok]
  cases values with
  | nil =>
      constructor
      · rintro ⟨h, -⟩
        cases h
      · rintro ⟨h, -⟩
        exact absurd rfl h
  | cons first rest =>
      have hne : first :: rest ≠ [] := List.cons_ne_nil _ _
      have hlast : (first :: rest).getLastD 0 = (first :: rest).getLast hne := by
        rw [List.getLastD_eq_getLast?, List.getLast?_eq_some_getLast hne, Option.getD_some]
      cases hadj : firstAdjacent (fun a b => decide (b < a)) 0 (first :: rest) with
      | some found =>
          constructor
          · rintro ⟨-, h⟩
            cases h
          · rintro ⟨-, h, -⟩
            rw [firstAdjacent_lt_eq_none.mpr h] at hadj
            cases hadj
      | none =>
          have hsorted := firstAdjacent_lt_eq_none.mp hadj
          have hall := getLast_lt_iff hsorted hne
          simp only [hlast, check_bind_eq_ok, checkArgument_eq_ok, decide_eq_true_eq, hall univ]
          by_cases hfit : 2 ^ width ≤ (first :: rest).getLast hne
          · simp only [if_pos hfit]
            constructor
            · rintro ⟨-, -, h⟩
              cases h
            · rintro ⟨-, -, -, h⟩
              exact absurd hfit (Nat.not_le.mpr ((hall _).mpr h))
          · simp only [if_neg hfit]
            have hfits := (hall _).mp (Nat.lt_of_not_le hfit)
            exact ⟨fun h => ⟨hne, hsorted, h.2.1, hfits⟩, fun h => ⟨rfl, h.2.2.1, rfl⟩⟩

theorem runFrom_write {values : List Nat} {univ : Nat} (params : Params) (config : BuildConfig)
    (before : BitString) (h : checkValues values univ = .ok ()) :
    (write values univ params config).runFrom before =
      (.ok (), (before.padTo 8).appendFields width values) := by
  rw [write, Attempt.runFrom_bind, Attempt.runFrom_lift, h]
  rfl

/-! ## Walking -/

/-- A cursor that reads every value right. -/
structure Reads (c : Cursor) (values : List Nat) (univ : Nat) : Prop where
  n_eq : c.n = values.length
  univ_eq : c.univ = univ
  get_eq : ∀ i (hi : i < values.length), c.get i = values[i]

namespace Cursor

variable {c : Cursor} {values : List Nat} {univ : Nat}

/-- What the search by halving keeps. -/
theorem search_eq (hc : Reads c values univ) (hsorted : values.Pairwise (· ≤ ·))
    {bound low high : Nat} (hlow : low ≤ high) (hhigh : high ≤ values.length)
    (hbelow : ∀ i (hi : i < values.length), i < low → values[i] < bound)
    (habove : ∀ hi : high < values.length, bound ≤ values[high]) :
    c.search bound low high = values.countP (· < bound) := by
  fun_induction Cursor.search c bound low high with
  | case1 low high hlt middle hsmall ih =>
      have hm : middle < values.length := by omega
      rw [hc.get_eq middle hm] at hsmall
      refine ih (by omega) hhigh (fun i hi hlo => ?_) habove
      exact Nat.lt_of_le_of_lt (getElem_le_getElem hsorted (by omega) hm) hsmall
  | case2 low high hlt middle hlarge ih =>
      have hm : middle < values.length := by omega
      rw [hc.get_eq middle hm] at hlarge
      exact ih (by omega) (by omega) hbelow fun _ => by omega
  | case3 low high hge =>
      obtain rfl : low = high := by omega
      exact (Plain.countP_eq hsorted hhigh hbelow habove).symm

/-- The cursor reads right and stands where the plain one does. -/
structure Tracks (c : Cursor) (p : Plain) : Prop where
  sorted : p.values.Pairwise (· ≤ ·)
  reads : Reads c p.values p.univ
  position_eq : c.position = p.position
  position_le : p.position ≤ p.values.length
  value_eq : c.value = p.value

theorem tracks_moveTo {p : Plain} (hsorted : p.values.Pairwise (· ≤ ·))
    (hc : Reads c p.values p.univ) {position : Nat} (h : position ≤ p.values.length) :
    Tracks (c.moveTo position) { p with position } where
  sorted := hsorted
  reads := ⟨hc.n_eq, hc.univ_eq, hc.get_eq⟩
  position_eq := rfl
  position_le := h
  value_eq := by
    rw [moveTo]
    rcases Nat.lt_or_ge position p.values.length with hlt | hge
    · rw [Plain.value_of_lt hlt, ← hc.get_eq position hlt]
      simp [hc.n_eq, hlt]
    · rw [Plain.value_of_le hge, ← hc.univ_eq]
      simp [hc.n_eq, Nat.not_lt.mpr hge]

/-- A search from behind the current value finds what a search of everything does. -/
theorem tracks_nextGeq {p : Plain} (h : Tracks c p) (bound : Nat) :
    Tracks (c.nextGeq bound) (p.nextGeq bound) := by
  have hfirst : c.search bound (if c.position < c.n ∧ c.value < bound then c.position + 1 else 0)
      c.n = p.values.countP (· < bound) := by
    rw [h.reads.n_eq]
    split
    · rename_i hcond
      obtain ⟨hpos, hval⟩ := hcond
      have hlt : p.position < p.values.length := by rwa [h.position_eq] at hpos
      rw [h.value_eq, Plain.value_of_lt hlt] at hval
      refine search_eq h.reads h.sorted (by omega) (Nat.le_refl _) (fun i hi hlow => ?_)
        fun hi => by omega
      rw [h.position_eq] at hlow
      exact Nat.lt_of_le_of_lt (getElem_le_getElem h.sorted (Nat.le_of_lt_succ hlow) hlt) hval
    · exact search_eq h.reads h.sorted (Nat.zero_le _) (Nat.le_refl _)
        (fun i hi hlow => by omega) fun hi => by omega
  rw [nextGeq, hfirst]
  exact tracks_moveTo h.sorted h.reads List.countP_le_length

/-- A cursor that reads every value right follows the list. -/
theorem follows_of_tracks {p : Plain} (h : Tracks c p) : Follows c p := by
  refine Follows.of_invariant (r := Tracks) (fun c p h => ?_) (fun c p m h hm => ?_) h
  · refine ⟨h.reads.n_eq, h.position_eq, h.value_eq, ?_⟩
    change Except.ok (if c.position = 0 then 0 else c.get (c.position - 1)) = _
    rw [h.position_eq, Plain.prevValue]
    have := h.position_le
    split
    · rfl
    · rw [h.reads.get_eq _ (by omega), List.getElem?_eq_getElem (by omega), Option.getD_some]
  · cases m with
    | moveTo position => exact ⟨_, rfl, tracks_moveTo h.sorted h.reads hm⟩
    | next =>
        refine ⟨_, rfl, ?_⟩
        rw [h.position_eq]
        exact tracks_moveTo h.sorted h.reads hm
    | nextGeq bound => exact ⟨_, rfl, tracks_nextGeq h bound⟩

end Cursor

/-! ## The promise -/

theorem width_le : width ≤ 64 := by decide

/-- Values of 32 bits are kept, whatever their universe. -/
theorem opens_of_fits {values : List Nat} {univ : Nat} (params : Params) (before : BitString)
    (hne : values ≠ []) (hsorted : values.Pairwise (· ≤ ·)) (hfit : ∀ v ∈ values, v < 2 ^ width) :
    format.OpensWhereCarried ((before.padTo 8).appendFields width values) before.size univ values
      params := by
  intro v pos hpos hcarries
  have hlen := List.length_pos_iff.mpr hne
  have hsize := size_appendFields (before.padTo 8) width_le values
  have hstart : v.Carries (alignUp pos 8) ((before.padTo 8).appendFields width values)
      (before.padTo 8).size := by
    rw [size_padTo_eight]
    exact hcarries.align hpos (by rw [hsize, size_padTo_eight]; omega)
  have hfits : alignUp pos 8 + values.length * width ≤ v.size := by
    have := hstart.fits
    rw [hsize] at this
    omega
  have hreads : Reads ⟨v, alignUp pos 8, values.length, univ, 0, 0⟩ values univ :=
    ⟨rfl, rfl, fun i hi =>
      hstart.getBits_appendFields width_le hi (hfit _ (List.getElem_mem hi))⟩
  refine ⟨Cursor.moveTo ⟨v, alignUp pos 8, values.length, univ, 0, 0⟩ 0, ?_, ?_⟩
  · change openAt v pos univ values.length params = _
    rw [openAt, checkRange, if_pos hfits]
    rfl
  · exact Cursor.follows_of_tracks
      (Cursor.tracks_moveTo (p := ⟨values, univ, 0⟩) hsorted hreads (Nat.zero_le _))

/-- Fixed width keeps every list in order. -/
theorem faithful (params : Params) : format.Faithful params := by
  have hfit : ∀ {values univ}, NonDecreasing values univ → ∀ v ∈ values, v < 2 ^ width :=
    fun h v hv => Nat.lt_of_lt_of_le (h.below v hv) h.univ_le
  have hwrite : ∀ {values univ}, NonDecreasing values univ → ∀ config before,
      (format.write values univ params config).runFrom before =
        (.ok (), (before.padTo 8).appendFields width values) := fun h config before =>
    runFrom_write params config before
      (checkValues_eq_ok.mpr ⟨h.ne_nil, h.sorted, h.below, hfit h⟩)
  refine ⟨fun h config before => ⟨_, hwrite h config before⟩, ?_, ?_, ?_⟩
  · intro values univ h config before bits hw
    rw [hwrite h] at hw
    obtain rfl := congrArg Prod.snd hw
    exact (appendFields_extends _ _ _).trans (padTo_extends _ _)
  · intro values univ h config before bits hw pos hpos
    rw [hwrite h] at hw
    obtain rfl := congrArg Prod.snd hw
    change alignUp pos 8 + _ = _
    have := le_alignUp before.size 8 (by omega)
    rw [alignUp_congr hpos, size_appendFields _ width_le, size_padTo_eight]
    omega
  · intro values univ h config before bits hw
    rw [hwrite h] at hw
    obtain rfl := congrArg Prod.snd hw
    exact opens_of_fits params before h.ne_nil h.sorted (hfit h)

theorem growsWithin (params : Params) : format.GrowsWithin params 39 := by
  refine ⟨fun {values univ} h {config before bits} hw => ?_⟩
  have hfit : ∀ v ∈ values, v < 2 ^ width := fun v hv => Nat.lt_of_lt_of_le (h.below v hv) h.univ_le
  have hrun : (format.write values univ params config).runFrom before =
      (.ok (), (before.padTo 8).appendFields width values) :=
    runFrom_write params config before (checkValues_eq_ok.mpr ⟨h.ne_nil, h.sorted, h.below, hfit⟩)
  obtain rfl := congrArg Prod.snd (hrun.symm.trans hw)
  have hpad := alignUp_eight_le before.size
  have hpos := List.length_pos_iff.mpr h.ne_nil
  have hwidth : width = 32 := rfl
  change ((before.padTo 8).appendFields width values).size ≤ _
  rw [size_appendFields _ width_le, size_padTo_eight, hwidth]
  omega

end FixedWidth
end Postings
