import Postings.Proofs.Sequence.Partitioned.Opened

/-!
# Walking partitions

The cursor has a partition open, and its inner cursor follows the segment of it.
Where the sequence is walked within the partition the inner cursor walks; otherwise
another partition is opened first, the right one for the position or the bound that
is sought.  A position or a bound that lies within the bounds of a partition is the
same distance from its start or base.

The tables are sound.  The payloads may be damaged, and then a partition may not open
or its cursor may end in damage; nothing else can go wrong in a walk.
-/

namespace Postings
namespace Partitioned

open SequenceCursor

variable {damaged : Prop} {nested : Format} {table : TableFormat} {values ends : List Nat}
  {univ : Nat}

/-! ## Asking the tables -/

namespace Layout.Holds

variable {l : Layout table}

/-- A layout whose cursor over the sizes has moved. -/
theorem with_sizes (h : l.Holds damaged nested values univ ends) {sizes : Sizes}
    (hsizes : SizesHold values.length ends sizes) :
    ({ l with sizes := sizes } : Layout table).Holds damaged nested values univ ends :=
  ⟨⟨h.ascending, h.cut, h.n_eq, h.univ_eq, h.partitions_eq, hsizes, h.uppers⟩, h.opens⟩

/-- A layout whose cursor over the upper bounds has moved. -/
theorem with_uppers (h : l.Holds damaged nested values univ ends) {found : Option table.Cursor}
    (hfound : UppersHold values univ ends l.single found) :
    ({ l with uppers := found } : Layout table).Holds damaged nested values univ ends :=
  ⟨⟨h.ascending, h.cut, h.n_eq, h.univ_eq, h.partitions_eq, h.sizes, hfound⟩, h.opens⟩

/-- The positions of a partition of several. -/
theorem positions_eq (h : l.Holds damaged nested values univ ends) (hseveral : 1 < ends.length)
    {p : Nat} (hp : p < ends.length) :
    ∃ l' : Layout table,
      l.positions p = .ok ((startAt ends p, startAt ends (p + 1)), l') ∧
      l'.Holds damaged nested values univ ends := by
  rw [positions]
  cases hsizes : l.sizes with
  | single =>
      have := h.sizes
      rw [hsizes] at this
      cases this
      omega
  | stored c =>
      have hknown := h.sizes
      rw [hsizes] at hknown
      cases hknown with
      | stored _ _ position hfollows =>
          have hlen : ends.dropLast.length = ends.length - 1 := List.length_dropLast
          obtain ⟨c', hc', hfollows'⟩ := hfollows.moveTo
            (show p ≤ ends.dropLast.length by omega)
          have hagree := hfollows'.agrees
          have hvalue : c'.value = startAt ends (p + 1) := by
            refine hagree.value_eq.trans ?_
            rcases Nat.lt_or_ge p ends.dropLast.length with hlt | hge
            · rw [Plain.value_of_lt hlt, startAt_succ hp]
              exact List.getElem_dropLast hlt
            · rw [Plain.value_of_le hge, show p + 1 = ends.length by omega, h.cut.startAt_length]
          have hprev : c'.prevValue = .ok (startAt ends p) := by
            refine hagree.prevValue_eq.trans (congrArg Except.ok ?_)
            cases p with
            | zero => rfl
            | succ p =>
                rw [Plain.prevValue_of_pos (Nat.succ_pos p)
                  (show p + 1 - 1 < ends.dropLast.length by omega), startAt_succ (by omega)]
                exact List.getElem_dropLast _
          have hmove : c.moveTo p = .ok c' := hc'
          refine ⟨{ l with sizes := .stored c' }, ?_,
            h.with_sizes (.stored hseveral c' p hfollows')⟩
          simp only [hmove, bind, Except.bind, hprev, hvalue, pure, Except.pure]
  | uniform log =>
      have hknown := h.sizes
      rw [hsizes] at hknown
      cases hknown with
      | uniform _ _ hequal =>
          have hlen := congrArg List.length hequal
          have hp' : p < (uniformEnds log values.length).length := by omega
          have hnext := Nat.add_one_mul p (2 ^ log)
          have hstart : p <<< log = startAt ends p := by
            rw [Nat.shiftLeft_eq, hequal, startAt_uniformEnds hp']
          have hstop : min (p <<< log + 2 ^ log) l.n = startAt ends (p + 1) := by
            rw [Nat.shiftLeft_eq, h.n_eq, hequal, startAt_succ hp', getElem_uniformEnds, hnext]
          exact ⟨l, by simp only [hstart ▸ hstop, hstart], h⟩

/-- The bounds of the values of a partition of several. -/
theorem valueBounds_eq (h : l.Holds damaged nested values univ ends) (hseveral : 1 < ends.length)
    {p : Nat} (hp : p < ends.length) :
    ∃ l' : Layout table,
      l.valueBounds p = .ok ((baseAt values ends p, upperAt values ends p), l') ∧
      l'.Holds damaged nested values univ ends := by
  have hknown := h.uppers
  rw [valueBounds]
  cases huppers : l.uppers with
  | none =>
      rw [huppers] at hknown
      cases hknown
      omega
  | some c =>
      rw [huppers] at hknown
      cases hknown with
      | table _ _ position hfollows =>
          obtain ⟨c', hc', hfollows'⟩ := hfollows.moveTo
            (show p + 1 ≤ (Partitioned.uppers values ends).length by rw [length_uppers]; omega)
          have hagree := hfollows'.agrees
          have hvalue : SequenceCursor.value c' = upperAt values ends p := by
            rw [hagree.value_eq, Plain.value, uppers_succ hp, Option.getD_some]
          have hbase : ∃ before, SequenceCursor.prevValue c' = .ok before ∧
              (if 0 < p then before + 1 else before) = baseAt values ends p := by
            refine ⟨_, hagree.prevValue_eq, ?_⟩
            rw [Plain.prevValue, if_neg (Nat.succ_ne_zero p)]
            simp only [Nat.add_sub_cancel]
            cases p with
            | zero => rfl
            | succ p =>
                rw [uppers_succ (Nat.lt_of_succ_lt hp), Option.getD_some, if_pos (Nat.succ_pos p)]
                rfl
          obtain ⟨before, hprev, hbase⟩ := hbase
          refine ⟨{ l with uppers := some c' }, ?_,
            h.with_uppers (.table hseveral c' (p + 1) hfollows')⟩
          simp only [hc', bind, Except.bind, hprev, hvalue, hbase, pure, Except.pure]

/-- The bounds of any partition. -/
theorem bounds_eq (h : l.Holds damaged nested values univ ends) {p : Nat} (hp : p < ends.length) :
    ∃ l' : Layout table, l.bounds p = .ok (boundsAt values ends p, l') ∧
      l'.Holds damaged nested values univ ends := by
  rcases Nat.lt_or_ge 1 ends.length with hseveral | hone
  · obtain ⟨l₁, hpositions, h₁⟩ := h.positions_eq hseveral hp
    obtain ⟨l₂, hvalues, h₂⟩ := h₁.valueBounds_eq hseveral hp
    refine ⟨l₂, ?_, h₂⟩
    rw [bounds]
    cases hsizes : l.sizes with
    | single =>
        have := h.sizes
        rw [hsizes] at this
        cases this
        omega
    | stored c =>
        simp only [bind, Except.bind, hpositions, hvalues, pure, Except.pure]
        rfl
    | uniform log =>
        simp only [bind, Except.bind, hpositions, hvalues, pure, Except.pure]
        rfl
  · have hsizes := h.sizes
    have huppers := h.uppers
    have hpos := h.cut.length_pos
    obtain rfl : p = 0 := by omega
    rw [bounds]
    cases hs : l.sizes with
    | single =>
        cases hu : l.uppers with
        | none =>
            rw [hu] at huppers
            cases huppers with
            | single _ hknown => exact ⟨l, by rw [hknown], h⟩
        | some c =>
            rw [hu] at huppers
            cases huppers
            omega
    | stored c =>
        rw [hs] at hsizes
        cases hsizes
        omega
    | uniform log =>
        rw [hs] at hsizes
        cases hsizes
        omega

/-- Any partition opens, to a cursor that follows its segment. -/
theorem openPartition_yields (h : l.Holds damaged nested values univ ends) {p : Nat}
    (hp : p < ends.length) :
    Yields (Failure.RefusedIf damaged) (l.openPartition nested p) fun opened =>
      opened.1 = boundsAt values ends p ∧ opened.2.2.Holds damaged nested values univ ends ∧
      FollowsUnless damaged opened.2.1 ⟨segment values ends p, spanAt values ends p, 0⟩ ∧
      ∃ inner, moveTo opened.2.1 0 = .ok inner := by
  obtain ⟨l', hbounds, h'⟩ := h.bounds_eq hp
  have hopens := h'.opens p hp
  have hstart := h.cut.startAt_lt hp
  have hbase := baseAt_le_upperAt h.cut h.ascending.increasing hp
  have hgood : ¬ ((boundsAt values ends p).stop ≤ (boundsAt values ends p).start ∨
      (boundsAt values ends p).upper < (boundsAt values ends p).base) :=
    not_or.mpr ⟨Nat.not_le.mpr hstart, Nat.not_lt.mpr hbase⟩
  rw [Format.OpensUnless, length_segment h.cut hp] at hopens
  rw [openPartition, hbounds]
  simp only [bind, Except.bind, if_neg hgood]
  exact hopens.bind fun inner hinner => ⟨rfl, h', hinner⟩

end Layout.Holds

/-! ## The open partition -/

/-- The cursor knows the list, and the inner cursor follows the open partition. -/
structure Core (damaged : Prop) (c : Cursor nested table) (values : List Nat) (univ : Nat)
    (ends : List Nat) (inside : Nat) : Prop where
  holds : c.layout.Holds damaged nested values univ ends
  partition_lt : c.partition < ends.length
  bounds_eq : c.bounds = boundsAt values ends c.partition
  inner : FollowsUnless damaged c.inner
    ⟨segment values ends c.partition, spanAt values ends c.partition, inside⟩

/-- The cursor stands where the plain one does: in the open partition, or past the
end with the last partition open and its cursor past its end. -/
structure Tracks (damaged : Prop) (c : Cursor nested table) (p : Plain) (ends : List Nat) :
    Prop where
  core : Core damaged c p.values p.univ ends (p.position - startAt ends c.partition)
  position_eq : c.position = p.position
  value_eq : c.value = p.value
  start_le : startAt ends c.partition ≤ p.position
  lt_stop : p.position < startAt ends (c.partition + 1) ∨
    p.position = p.values.length ∧ startAt ends (c.partition + 1) = p.values.length

namespace Cursor

variable {c : Cursor nested table} {p : Plain}

theorem switchTo_yields {inside : Nat} (h : Core damaged c values univ ends inside) {k : Nat}
    (hk : k < ends.length) :
    Yields (Failure.CorruptIf damaged) (c.switchTo k) fun c' =>
      c'.partition = k ∧ Core damaged c' values univ ends 0 := by
  rw [switchTo]
  refine (h.holds.openPartition_yields hk).whileWalking.bind ?_
  rintro ⟨bounds, inner, layout⟩ ⟨rfl, hholds, hfollows, -⟩
  exact ⟨rfl, hholds, hk, rfl, hfollows⟩

/-- A position of the open partition is where the inner cursor stands. -/
theorem tracks_inside {inner : nested.Cursor} {inside position : Nat}
    (h : Core damaged c p.values p.univ ends inside) (hstart : startAt ends c.partition ≤ position)
    (hstop : position < startAt ends (c.partition + 1))
    (hinner : FollowsUnless damaged inner ⟨segment p.values ends c.partition,
      spanAt p.values ends c.partition, position - startAt ends c.partition⟩) :
    Tracks damaged
      { c with inner, position, value := c.bounds.base + SequenceCursor.value inner }
      { p with position } ends := by
  have hlen := length_segment h.holds.cut h.partition_lt
  have hlt : position - startAt ends c.partition <
      (segment p.values ends c.partition).length := by omega
  obtain ⟨hin, hsegment⟩ := getElem_segment h.holds.cut h.partition_lt hlt
  have hindex : startAt ends c.partition + (position - startAt ends c.partition) = position := by
    omega
  refine ⟨⟨h.holds, h.partition_lt, h.bounds_eq, hinner⟩, rfl, ?_, hstart, .inl hstop⟩
  have hbase := baseAt_le h.holds.cut h.holds.ascending.increasing h.partition_lt
    (Nat.le_add_right _ _) hin
  change c.bounds.base + SequenceCursor.value inner = _
  rw [hinner.agrees.value_eq, Plain.value_of_lt hlt, hsegment, h.bounds_eq]
  simp only [hindex] at hin hbase ⊢
  rw [Plain.value_of_lt (p := { p with position }) hin]
  exact Nat.add_sub_cancel' hbase

/-- Moves to a position of the open partition. -/
theorem tracks_moveWithin {inside : Nat} (h : Core damaged c p.values p.univ ends inside)
    {position : Nat} (hstart : startAt ends c.partition ≤ position)
    (hstop : position < startAt ends (c.partition + 1)) :
    Yields (Failure.CorruptIf damaged) (c.moveWithin position) fun c' =>
      Tracks damaged c' { p with position } ends := by
  have hlen := length_segment h.holds.cut h.partition_lt
  have hoffset : c.bounds.start = startAt ends c.partition := by
    rw [h.bounds_eq]
    rfl
  rw [moveWithin, hoffset]
  exact (h.inner.moveTo (show position - startAt ends c.partition ≤
    (segment p.values ends c.partition).length by omega)).bind fun _ hfollows =>
      tracks_inside h hstart hstop hfollows

/-- Opens a partition and moves to a position in it. -/
theorem tracks_switch_moveWithin {inside : Nat} (h : Core damaged c p.values p.univ ends inside)
    {k position : Nat} (hk : k < ends.length) (hstart : startAt ends k ≤ position)
    (hstop : position < startAt ends (k + 1)) :
    Yields (Failure.CorruptIf damaged)
      (do (← c.switchTo k).moveWithin position : Except Failure (Cursor nested table)) fun c' =>
        Tracks damaged c' { p with position } ends := by
  refine (switchTo_yields h hk).bind ?_
  rintro c₁ ⟨rfl, hcore⟩
  exact tracks_moveWithin hcore hstart hstop

/-- Moves past the end, with the last partition open. -/
theorem tracks_moveToEnd {inside : Nat} (h : Core damaged c p.values p.univ ends inside) :
    Yields (Failure.CorruptIf damaged) c.moveToEnd fun c' =>
      Tracks damaged c' { p with position := p.values.length } ends := by
  have hpos := h.holds.cut.length_pos
  have hrest : ∀ {c₁ : Cursor nested table} {inside}, c₁.partition = ends.length - 1 →
      Core damaged c₁ p.values p.univ ends inside →
      Yields (Failure.CorruptIf damaged)
        (do
          let inner ← SequenceCursor.moveTo c₁.inner (c₁.bounds.stop - c₁.bounds.start)
          return { c₁ with inner, position := c₁.layout.n, value := c₁.layout.univ } :
          Except Failure (Cursor nested table))
        fun c' => Tracks damaged c' { p with position := p.values.length } ends := by
    intro c₁ inside hpartition hcore
    have hstop : startAt ends (c₁.partition + 1) = p.values.length := by
      rw [hpartition, show ends.length - 1 + 1 = ends.length by omega,
        hcore.holds.cut.startAt_length]
    have hlen := length_segment hcore.holds.cut hcore.partition_lt
    have hbounds : c₁.bounds.stop - c₁.bounds.start =
        startAt ends (c₁.partition + 1) - startAt ends c₁.partition := by
      rw [hcore.bounds_eq]
      rfl
    rw [hbounds]
    refine (hcore.inner.moveTo (show startAt ends (c₁.partition + 1) - startAt ends c₁.partition ≤
      (segment p.values ends c₁.partition).length by omega)).bind fun inner hfollows => ?_
    rw [hstop] at hfollows
    refine ⟨⟨hcore.holds, hcore.partition_lt, hcore.bounds_eq, hfollows⟩, hcore.holds.n_eq, ?_,
      hcore.holds.cut.startAt_le (Nat.le_of_lt hcore.partition_lt), .inr ⟨rfl, hstop⟩⟩
    rw [Plain.value_of_le (Nat.le_refl p.values.length)]
    exact hcore.holds.univ_eq
  simp only [moveToEnd, h.holds.partitions_eq]
  by_cases haway : c.partition ≠ ends.length - 1
  · rw [if_pos haway]
    refine (switchTo_yields h (show ends.length - 1 < ends.length by omega)).bind ?_
    rintro c₁ ⟨hpartition, hcore⟩
    exact hrest hpartition hcore
  · rw [if_neg haway]
    exact hrest (not_not.mp haway) h

/-! ## Finding the partition of a position -/

/-- The partition of a position is the number of partitions that stop at or before it. -/
theorem startAt_countP (h : Ends values.length ends) {position : Nat}
    (hlt : position < values.length) :
    startAt ends (ends.dropLast.countP (· < position + 1)) ≤ position ∧
      position < startAt ends (ends.dropLast.countP (· < position + 1) + 1) := by
  have hpos := h.length_pos
  have hlen : ends.dropLast.length = ends.length - 1 := List.length_dropLast
  have hsorted : ends.dropLast.Pairwise (· ≤ ·) :=
    pairwise_le_of_lt (h.increasing.sublist (List.dropLast_sublist ends))
  have hcount : ends.dropLast.countP (· < position + 1) ≤ ends.dropLast.length :=
    List.countP_le_length
  -- A partition is counted when it stops at or before the position.
  have hcounted : ∀ k, k < ends.dropLast.length →
      (startAt ends (k + 1) < position + 1 ↔ k < ends.dropLast.countP (· < position + 1)) := by
    intro k hk
    have hiff := Plain.getElem_lt_iff hsorted (position + 1) hk
    rwa [List.getElem_dropLast, ← startAt_succ (by omega)] at hiff
  constructor
  · cases hk : ends.dropLast.countP (· < position + 1) with
    | zero => exact Nat.zero_le _
    | succ k =>
        have := (hcounted k (by omega)).mpr (by omega)
        omega
  · rcases Nat.lt_or_eq_of_le hcount with hin | hall
    · have := not_congr (hcounted _ hin)
      omega
    · rw [hall, show ends.dropLast.length + 1 = ends.length by omega, h.startAt_length]
      exact hlt

/-- The uniform partition of a position. -/
theorem startAt_uniform_div {log n position : Nat} (hlt : position < n) :
    position / 2 ^ log < (uniformEnds log n).length ∧
      startAt (uniformEnds log n) (position / 2 ^ log) ≤ position ∧
      position < startAt (uniformEnds log n) (position / 2 ^ log + 1) := by
  have hpow := Nat.two_pow_pos log
  have hdiv := Nat.div_add_mod position (2 ^ log)
  have hmod := Nat.mod_lt position hpow
  have hnext := Nat.add_one_mul (position / 2 ^ log) (2 ^ log)
  rw [Nat.mul_comm] at hdiv
  have hk : position / 2 ^ log < (uniformEnds log n).length := by
    rw [length_uniformEnds, Nat.lt_div_iff_mul_lt hpow]
    omega
  refine ⟨hk, ?_, ?_⟩
  · rw [startAt_uniformEnds hk]
    omega
  · rw [startAt_succ hk, getElem_uniformEnds]
    omega

theorem exists_partitionOf {inside : Nat} (h : Core damaged c values univ ends inside)
    {position : Nat} (hlt : position < values.length) :
    ∃ (k : Nat) (c' : Cursor nested table), c.partitionOf position = .ok (k, c') ∧
      Core damaged c' values univ ends inside ∧ k < ends.length ∧ startAt ends k ≤ position ∧
      position < startAt ends (k + 1) := by
  have hsizes := h.holds.sizes
  rw [partitionOf]
  cases hs : c.layout.sizes with
  | single =>
      rw [hs] at hsizes
      cases hsizes with
      | single hone =>
          refine ⟨0, c, rfl, h, by omega, Nat.zero_le _, ?_⟩
          rw [Nat.zero_add, ← hone, h.holds.cut.startAt_length]
          exact hlt
  | stored cursor =>
      rw [hs] at hsizes
      cases hsizes with
      | stored hseveral _ at_ hfollows =>
          obtain ⟨cursor', hcursor', hfollows'⟩ := hfollows.nextGeq (position + 1)
          have hmove : cursor.nextGeq (position + 1) = .ok cursor' := hcursor'
          have hplace : cursor'.position = ends.dropLast.countP (· < position + 1) :=
            hfollows'.agrees.position_eq
          have hcount : ends.dropLast.countP (· < position + 1) ≤ ends.length - 1 := by
            rw [← List.length_dropLast]
            exact List.countP_le_length
          refine ⟨ends.dropLast.countP (· < position + 1),
            { c with layout := { c.layout with sizes := .stored cursor' } }, ?_,
            ⟨h.holds.with_sizes (.stored hseveral cursor' _ hfollows'), h.partition_lt, h.bounds_eq,
              h.inner⟩, by omega, startAt_countP h.holds.cut hlt⟩
          simp only [hmove, bind, Except.bind, hplace, pure, Except.pure]
  | uniform log =>
      rw [hs] at hsizes
      cases hsizes with
      | uniform hseveral _ hequal =>
          refine ⟨position / 2 ^ log, c, by simp only [Nat.shiftRight_eq_div_pow], h, ?_⟩
          rw [hequal]
          exact startAt_uniform_div hlt

theorem tracks_moveTo (h : Tracks damaged c p ends) {position : Nat}
    (hp : position ≤ p.values.length) :
    Yields (Failure.CorruptIf damaged) (c.moveTo position) fun c' =>
      Tracks damaged c' { p with position } ends := by
  have hn := h.core.holds.n_eq
  have hbounds := h.core.bounds_eq
  rw [moveTo, hbounds]
  by_cases hhere : (boundsAt p.values ends c.partition).start ≤ position ∧
      position < (boundsAt p.values ends c.partition).stop
  · rw [if_pos hhere]
    exact tracks_moveWithin h.core hhere.1 hhere.2
  rw [if_neg hhere, hn]
  by_cases hend : position = p.values.length
  · rw [if_pos hend, hend]
    exact tracks_moveToEnd h.core
  · obtain ⟨k, c₁, hfind, hcore, hk, hstart, hstop⟩ := exists_partitionOf h.core
      (show position < p.values.length by omega)
    rw [if_neg hend, hfind]
    exact tracks_switch_moveWithin hcore hk hstart hstop

theorem tracks_next (h : Tracks damaged c p ends) (hp : p.position < p.values.length) :
    Yields (Failure.CorruptIf damaged) c.next fun c' =>
      Tracks damaged c' { p with position := p.position + 1 } ends := by
  have hn := h.core.holds.n_eq
  have hbounds := h.core.bounds_eq
  have hin : p.position < startAt ends (c.partition + 1) := by
    rcases h.lt_stop with hlt | ⟨heq, -⟩
    · exact hlt
    · omega
  have hlen := length_segment h.core.holds.cut h.core.partition_lt
  have hstartle := h.start_le
  have hstop : c.bounds.stop = startAt ends (c.partition + 1) := by
    rw [hbounds]
    rfl
  simp only [next, h.position_eq, hstop, hn]
  by_cases hhere : p.position + 1 < startAt ends (c.partition + 1)
  · rw [if_pos hhere]
    refine (h.core.inner.next (show p.position - startAt ends c.partition <
      (segment p.values ends c.partition).length by omega)).bind fun inner hfollows => ?_
    have hinside : p.position - startAt ends c.partition + 1 =
        p.position + 1 - startAt ends c.partition := by omega
    simp only [hinside] at hfollows
    exact tracks_inside h.core (Nat.le_succ_of_le hstartle) hhere hfollows
  · rw [if_neg hhere]
    by_cases hend : p.position + 1 = p.values.length
    · rw [if_pos hend, hend]
      exact tracks_moveToEnd h.core
    · have hstart : startAt ends (c.partition + 1) ≤ p.position + 1 := by omega
      have hk : c.partition + 1 < ends.length :=
        h.core.holds.cut.lt_length_of_startAt_le h.core.partition_lt hstart (by omega)
      have hnext := h.core.holds.cut.startAt_lt hk
      rw [if_neg hend]
      exact tracks_switch_moveWithin h.core hk hstart (by omega)

/-! ## Searching -/

/-- The values below a bound that a partition reaches are those before the partition
and those in it that are below the bound relative to the base. -/
theorem countP_eq_startAt_add (hvalues : Ascending values univ) (h : Ends values.length ends)
    {partition bound : Nat} (hpartition : partition < ends.length)
    (hbelow : ∀ i (hi : i < values.length), i < startAt ends partition → values[i] < bound)
    (hreach : bound ≤ upperAt values ends partition) :
    (segment values ends partition).countP (· < bound - baseAt values ends partition) <
        (segment values ends partition).length ∧
      values.countP (· < bound) = startAt ends partition +
        (segment values ends partition).countP (· < bound - baseAt values ends partition) := by
  have hlen := length_segment h hpartition
  have hsegment := (ascending_segment h hvalues hpartition).increasing
  -- A value is below the bound when it is below it relative to the base.
  have hrelative : ∀ i (hi : i < (segment values ends partition).length),
      ∃ hj : startAt ends partition + i < values.length,
        (values[startAt ends partition + i] < bound ↔
          i < (segment values ends partition).countP
            (· < bound - baseAt values ends partition)) := by
    intro i hi
    obtain ⟨hj, heq⟩ := getElem_segment h hpartition hi
    have hbase := baseAt_le h hvalues.increasing hpartition (Nat.le_add_right _ i) hj
    refine ⟨hj, ?_⟩
    rw [← Plain.getElem_lt_iff (pairwise_le_of_lt hsegment) _ hi, heq]
    omega
  generalize (segment values ends partition).countP
    (· < bound - baseAt values ends partition) = k at hrelative ⊢
  have hin : k < (segment values ends partition).length := by
    have hstart := h.startAt_lt hpartition
    obtain ⟨hlast, hupper⟩ := upperAt_eq h hpartition
    obtain ⟨hj, hiff⟩ := hrelative (startAt ends (partition + 1) - 1 - startAt ends partition)
      (by omega)
    have hindex : startAt ends partition +
        (startAt ends (partition + 1) - 1 - startAt ends partition) =
        startAt ends (partition + 1) - 1 := by omega
    simp only [hindex] at hiff
    have := (not_congr hiff).mp (by omega)
    omega
  obtain ⟨hj, hiff⟩ := hrelative k hin
  refine ⟨hin, Plain.countP_eq (pairwise_le_of_lt hvalues.increasing) (Nat.le_of_lt hj)
    (fun i hi hlt => ?_) fun _ => Nat.not_lt.mp ((not_congr hiff).mpr (Nat.lt_irrefl k))⟩
  rcases Nat.lt_or_ge i (startAt ends partition) with hearlier | hhere
  · exact hbelow i hi hearlier
  · obtain ⟨d, rfl⟩ := Nat.exists_eq_add_of_le hhere
    exact (hrelative d (by omega)).2.mpr (by omega)

/-- A bound that the open partition reaches is found in it. -/
theorem tracks_nextGeqWithin {inside : Nat} (h : Core damaged c p.values p.univ ends inside)
    {bound : Nat}
    (hbelow : ∀ i (hi : i < p.values.length), i < startAt ends c.partition → p.values[i] < bound)
    (hreach : bound ≤ upperAt p.values ends c.partition) :
    Yields (Failure.CorruptIf damaged) (c.nextGeqWithin bound) fun c' =>
      Tracks damaged c' (p.nextGeq bound) ends := by
  have hlen := length_segment h.holds.cut h.partition_lt
  obtain ⟨hin, hfound⟩ := countP_eq_startAt_add h.holds.ascending h.holds.cut h.partition_lt hbelow
    hreach
  have hstart : c.bounds.start = startAt ends c.partition := by
    rw [h.bounds_eq]
    rfl
  have hbase : c.bounds.base = baseAt p.values ends c.partition := by
    rw [h.bounds_eq]
    rfl
  have hmove := h.inner.nextGeq (bound - baseAt p.values ends c.partition)
  rw [nextGeqWithin, hbase]
  refine hmove.bind fun inner hfollows => ?_
  rw [Plain.nextGeq] at hfollows
  generalize (segment p.values ends c.partition).countP
    (· < bound - baseAt p.values ends c.partition) = k at hin hfound hfollows
  have hposition : SequenceCursor.position inner = k := hfollows.agrees.position_eq
  rw [Plain.nextGeq, hfound, hposition, hstart, ← hbase]
  refine tracks_inside h (Nat.le_add_right _ _) (by omega) ?_
  rw [Nat.add_sub_cancel_left]
  exact hfollows

/-- No value is below a bound that is at most the first. -/
theorem countP_eq_zero (hvalues : Ascending values univ) {bound : Nat}
    (hle : bound ≤ values.headD 0) : values.countP (· < bound) = 0 := by
  refine Plain.countP_eq (pairwise_le_of_lt hvalues.increasing) (Nat.zero_le _)
    (fun i _ hlt => absurd hlt (Nat.not_lt_zero i)) fun _ => ?_
  rw [← headD_eq_getElem hvalues.length_pos]
  exact hle

/-- Every value is below a bound that the last partition does not reach. -/
theorem countP_eq_length (hvalues : Ascending values univ) (h : Ends values.length ends)
    {bound : Nat} (hlt : upperAt values ends (ends.length - 1) < bound) :
    values.countP (· < bound) = values.length := by
  have hpos := h.length_pos
  have hindex : ends.length - 1 + 1 = ends.length := by omega
  refine Plain.countP_eq (pairwise_le_of_lt hvalues.increasing) (Nat.le_refl _)
    (fun i hi _ => ?_) fun hi => absurd hi (Nat.lt_irrefl _)
  refine Nat.lt_of_le_of_lt (le_upperAt h hvalues.increasing
    (show ends.length - 1 < ends.length by omega) ?_ hi) hlt
  rw [hindex, h.startAt_length]
  exact hi

/-- The place of a bound among the upper bounds.  At place zero nothing is below the
bound, past the last place everything is, and at another place the bound is within
reach of a partition and of none before it. -/
structure IsPlace (values ends : List Nat) (bound place : Nat) : Prop where
  nothing_below : place = 0 → values.countP (· < bound) = 0
  all_below : ends.length < place → values.countP (· < bound) = values.length
  reached : ∀ k, place = k + 1 → k < ends.length → bound ≤ upperAt values ends k
  earlier_below : ∀ k, place = k + 1 → k < ends.length →
    ∀ i (hi : i < values.length), i < startAt ends k → values[i] < bound

/-- A bound beside the only partition is in front of it or behind it. -/
theorem isPlace_single (hvalues : Ascending values univ) (h : Ends values.length ends)
    (hone : ends.length = 1) {bound : Nat}
    (hout : ¬ (values.headD 0 ≤ bound ∧ bound ≤ upperAt values ends 0)) :
    IsPlace values ends bound (if bound ≤ values.headD 0 then 0 else ends.length + 1) := by
  by_cases hle : bound ≤ values.headD 0
  · rw [if_pos hle]
    exact ⟨fun _ => countP_eq_zero hvalues hle, fun hpast => by omega, fun k hk => by omega,
      fun k hk => by omega⟩
  · have hbehind : upperAt values ends (ends.length - 1) < bound := by
      rw [hone, Nat.sub_self]
      omega
    rw [if_neg hle]
    exact ⟨fun hzero => by omega, fun _ => countP_eq_length hvalues h hbehind,
      fun k hk => by omega, fun k hk => by omega⟩

/-- The table of upper bounds tells the place of a bound. -/
theorem isPlace_countP_uppers (hvalues : Ascending values univ) (h : Ends values.length ends)
    (bound : Nat) : IsPlace values ends bound ((uppers values ends).countP (· < bound)) := by
  have hsorted := (uppers_nonDecreasing h hvalues).sorted
  have hlen : (uppers values ends).length = ends.length + 1 := length_uppers
  -- A partition is before the place when its upper bound is below the bound.
  have hbefore : ∀ k, k < ends.length →
      (upperAt values ends k < bound ↔ k + 1 < (uppers values ends).countP (· < bound)) := by
    intro k hk
    have hiff := Plain.getElem_lt_iff hsorted bound
      (show k + 1 < (uppers values ends).length by omega)
    rwa [getElem_uppers_succ hk] at hiff
  refine ⟨fun hzero => countP_eq_zero hvalues ?_, fun hpast => countP_eq_length hvalues h ?_,
    fun k hk hlt => ?_, fun k hk hlt i hi hstart => ?_⟩
  · have hfirst : values.headD 0 < bound ↔ 0 < (uppers values ends).countP (· < bound) :=
      Plain.getElem_lt_iff hsorted bound (show 0 < (uppers values ends).length by omega)
    omega
  · have hpos := h.length_pos
    exact (hbefore (ends.length - 1) (by omega)).mpr (by omega)
  · have hnot := not_congr (hbefore k hlt)
    omega
  · cases k with
    | zero => exact absurd hstart (Nat.not_lt_zero i)
    | succ k =>
        have hk' : k < ends.length := Nat.lt_of_succ_lt hlt
        exact Nat.lt_of_le_of_lt (le_upperAt h hvalues.increasing hk' hstart hi)
          ((hbefore k hk').mpr (by omega))

/-- The cursor finds the place of a bound that is beside the open partition. -/
theorem exists_placeOf {inside : Nat} (h : Core damaged c values univ ends inside) {bound : Nat}
    (hout : ¬ (c.bounds.base ≤ bound ∧ bound ≤ c.bounds.upper)) :
    ∃ (place : Nat) (c' : Cursor nested table), c.placeOf bound = .ok (place, c') ∧
      Core damaged c' values univ ends inside ∧ IsPlace values ends bound place := by
  have hvalues := h.holds.ascending
  have hcut := h.holds.cut
  have huppers := h.holds.uppers
  rw [placeOf]
  cases hu : c.layout.uppers with
  | none =>
      rw [hu] at huppers
      cases huppers with
      | single hone _ =>
          have hpartition : c.partition = 0 := by
            have := h.partition_lt
            omega
          have hbounds := h.bounds_eq
          rw [hpartition] at hbounds
          rw [hbounds] at hout ⊢
          refine ⟨_, c, rfl, h, ?_⟩
          rw [h.holds.partitions_eq]
          exact isPlace_single hvalues hcut hone hout
  | some cursor =>
      rw [hu] at huppers
      cases huppers with
      | table hseveral _ at_ hfollows =>
          obtain ⟨cursor', hcursor', hfollows'⟩ := hfollows.nextGeq bound
          have hplace : SequenceCursor.position cursor' =
            (uppers values ends).countP (· < bound) := hfollows'.agrees.position_eq
          refine ⟨_, { c with layout := { c.layout with uppers := some cursor' } }, ?_,
            ⟨h.holds.with_uppers (.table hseveral cursor' _ hfollows'), h.partition_lt,
              h.bounds_eq, h.inner⟩, isPlace_countP_uppers hvalues hcut bound⟩
          simp only [hcursor', bind, Except.bind, hplace, pure, Except.pure]

/-- Moves to a position of a cursor of which only the open partition is known. -/
theorem tracks_moveTo_zero {inside : Nat} (h : Core damaged c p.values p.univ ends inside) :
    Yields (Failure.CorruptIf damaged) (c.moveTo 0) fun c' =>
      Tracks damaged c' { p with position := 0 } ends := by
  have hpos := h.holds.ascending.length_pos
  have hbounds := h.bounds_eq
  rw [moveTo, hbounds, h.holds.n_eq]
  by_cases hhere : (boundsAt p.values ends c.partition).start ≤ 0 ∧
      0 < (boundsAt p.values ends c.partition).stop
  · rw [if_pos hhere]
    exact tracks_moveWithin h hhere.1 hhere.2
  · obtain ⟨k, c₁, hfind, hcore, hk, hstart, hstop⟩ := exists_partitionOf h hpos
    rw [if_neg hhere, if_neg (Nat.ne_of_lt hpos), hfind]
    exact tracks_switch_moveWithin hcore hk hstart hstop

theorem tracks_nextGeq (h : Tracks damaged c p ends) (bound : Nat) :
    Yields (Failure.CorruptIf damaged) (c.nextGeq bound) fun c' =>
      Tracks damaged c' (p.nextGeq bound) ends := by
  rw [nextGeq]
  by_cases hhere : c.bounds.base ≤ bound ∧ bound ≤ c.bounds.upper
  · have hbounds := h.core.bounds_eq
    rw [if_pos hhere]
    rw [hbounds] at hhere
    refine tracks_nextGeqWithin h.core (fun i hi hlt => ?_) hhere.2
    exact Nat.lt_of_lt_of_le (lt_baseAt h.core.holds.cut h.core.holds.ascending.increasing
      h.core.partition_lt hlt hi) hhere.1
  · obtain ⟨place, c₁, hplace, hcore, hat⟩ := exists_placeOf h.core hhere
    rw [if_neg hhere, hplace]
    simp only [bind, Except.bind]
    by_cases hfirst : place = 0
    · rw [if_pos hfirst, Plain.nextGeq, hat.nothing_below hfirst]
      exact tracks_moveTo_zero hcore
    rw [if_neg hfirst, hcore.holds.partitions_eq]
    by_cases hlast : ends.length < place
    · rw [if_pos hlast, Plain.nextGeq, hat.all_below hlast]
      exact tracks_moveToEnd hcore
    · have hk : place - 1 < ends.length := by omega
      have hreach := hat.reached (place - 1) (by omega) hk
      have hbelow := hat.earlier_below (place - 1) (by omega) hk
      rw [if_neg hlast]
      refine (switchTo_yields hcore hk).bind ?_
      rintro c₂ ⟨hpartition₂, hcore₂⟩
      rw [← hpartition₂] at hreach hbelow
      exact tracks_nextGeqWithin hcore₂ hbelow hreach

/-! ## The value before -/

theorem prevValue_yields (h : Tracks damaged c p ends) :
    Yields (Failure.CorruptIf damaged) c.prevValue (· = p.prevValue) := by
  have hcut := h.core.holds.cut
  have hbounds := h.core.bounds_eq
  have hstart := h.start_le
  have hposition : p.position ≤ startAt ends (c.partition + 1) := by
    rcases h.lt_stop with hlt | ⟨heq, hstop⟩
    · exact Nat.le_of_lt hlt
    · omega
  have hstop := hcut.startAt_le (show c.partition + 1 ≤ ends.length from h.core.partition_lt)
  rw [prevValue, h.position_eq]
  by_cases hzero : p.position = 0
  · rw [if_pos hzero, Plain.prevValue, if_pos hzero]
    exact rfl
  have hlt : p.position - 1 < p.values.length := by omega
  rw [if_neg hzero, Plain.prevValue_of_pos (by omega) hlt, hbounds]
  by_cases hfirst : p.position = startAt ends c.partition
  · have hif : p.position = (boundsAt p.values ends c.partition).start := hfirst
    rw [if_pos hif]
    change baseAt p.values ends c.partition - 1 = _
    rw [baseAt, if_neg (fun hpartition => hzero (by rw [hfirst, hpartition]; rfl)), ← hfirst,
      List.getElem?_eq_getElem hlt]
    rfl
  · have hif : ¬ p.position = (boundsAt p.values ends c.partition).start := hfirst
    have hlen := length_segment hcut h.core.partition_lt
    have hinside : p.position - startAt ends c.partition - 1 <
        (segment p.values ends c.partition).length := by omega
    obtain ⟨hj, heq⟩ := getElem_segment hcut h.core.partition_lt hinside
    have hbase := baseAt_le hcut h.core.holds.ascending.increasing h.core.partition_lt
      (Nat.le_add_right _ _) hj
    have hindex : startAt ends c.partition + (p.position - startAt ends c.partition - 1) =
        p.position - 1 := by omega
    simp only [hindex] at heq hbase
    rw [if_neg hif]
    refine h.core.inner.agrees.prevValue.bind ?_
    rintro _ rfl
    change baseAt p.values ends c.partition + _ = _
    rw [Plain.prevValue_of_pos (show 0 < p.position - startAt ends c.partition by omega) hinside,
      heq]
    exact Nat.add_sub_cancel' hbase

/-- A cursor over the partitions of a list follows it, unless damaged. -/
theorem follows_of_tracks (h : Tracks damaged c p ends) : FollowsUnless damaged c p := by
  refine FollowsUnless.of_invariant (r := fun c p => Tracks damaged c p ends) (fun c p h => ?_)
    (fun c p m h hm => ?_) h
  · exact ⟨h.core.holds.n_eq, h.position_eq, h.value_eq, prevValue_yields h⟩
  · cases m with
    | moveTo position => exact tracks_moveTo h hm
    | next => exact tracks_next h hm
    | nextGeq bound => exact tracks_nextGeq h bound

end Cursor
end Partitioned
end Postings
