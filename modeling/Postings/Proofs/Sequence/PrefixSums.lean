import Postings.Proofs.Sequence.Accepted
import Postings.Sequence.PrefixSums

/-!
# Positive numbers read back

Positive numbers are stored as their running sums.  The sums increase strictly, so every
format that keeps ascending lists keeps them; a zero is refused, and nothing is written of
a list that has one.

A cursor over the sums that follows them tells each number: the sum where it stands is the
sum before it and the number there.  This holds wherever a move led, for it rests on
nothing but the two answers of the cursor of sums, whatever state is behind them.  The
difference that is taken is never below zero (`Cursor.Shows`).
-/

namespace Postings
namespace PrefixSums

open SequenceCursor

/-! ## Running sums -/

/-- What the running sums of accepted numbers are. -/
theorem sumsOf_spec {values sums : List Nat} {position sum : Nat}
    (h : sumsOf position sum values = .ok sums) :
    sums.length = values.length ∧ (∀ x ∈ values, 0 < x) ∧
      ∀ i, i < values.length → sums[i]? = some (sum + (values.take (i + 1)).sum) := by
  induction values generalizing position sum sums with
  | nil =>
      obtain rfl := Except.ok.inj h
      exact ⟨rfl, fun _ hx => absurd hx List.not_mem_nil, fun i hi => absurd hi (Nat.not_lt_zero i)⟩
  | cons x values ih =>
      rw [sumsOf] at h
      split at h
      · cases h
      · rename_i hpos
        obtain ⟨rest, hrest, h⟩ := exists_of_bind_eq_ok h
        obtain rfl := Except.ok.inj h
        obtain ⟨hlength, hpositive, hsums⟩ := ih hrest
        refine ⟨congrArg (· + 1) hlength, List.forall_mem_cons.mpr ⟨Nat.pos_of_ne_zero hpos,
          hpositive⟩, fun i hi => ?_⟩
        rw [List.take_succ_cons, List.sum_cons]
        cases i with
        | zero => rfl
        | succ i =>
            rw [List.getElem?_cons_succ, hsums i (Nat.lt_of_succ_lt_succ hi), Nat.add_assoc]

/-- Positive numbers have running sums. -/
theorem exists_sumsOf {values : List Nat} (h : ∀ x ∈ values, 0 < x) (position sum : Nat) :
    ∃ sums, sumsOf position sum values = .ok sums := by
  induction values generalizing position sum with
  | nil => exact ⟨[], rfl⟩
  | cons x values ih =>
      obtain ⟨hx, hvalues⟩ := List.forall_mem_cons.mp h
      obtain ⟨sums, hsums⟩ := ih hvalues (position + 1) (sum + x)
      refine ⟨(sum + x) :: sums, ?_⟩
      rw [sumsOf, if_neg (Nat.ne_of_gt hx), hsums]
      rfl

/-- Of the zeros among the numbers, the first one is named. -/
theorem sumsOf_eq_error {values : List Nat} (h : 0 ∈ values) (position sum : Nat) :
    sumsOf position sum values = .error (.invalidArgument "values"
      s!"value at position {position + values.idxOf 0} is zero") := by
  induction values generalizing position sum with
  | nil => exact absurd h List.not_mem_nil
  | cons x values ih =>
      rw [sumsOf]
      by_cases hx : x = 0
      · subst hx
        rw [if_pos rfl, List.idxOf_cons_self]
        rfl
      · have hrest : 0 ∈ values := (List.mem_cons.mp h).resolve_left (Ne.symm hx)
        rw [if_neg hx, ih hrest, List.idxOf_cons_ne _ hx, Nat.add_right_comm, Nat.add_assoc]
        rfl

/-- Running sums increase, from the first number to the sum of all. -/
theorem sumsOf_increasing {values sums : List Nat} {position sum : Nat}
    (h : sumsOf position sum values = .ok sums) :
    sums.Pairwise (· < ·) ∧ ∀ s ∈ sums, sum < s ∧ s ≤ sum + values.sum := by
  induction values generalizing position sum sums with
  | nil =>
      obtain rfl := Except.ok.inj h
      exact ⟨.nil, fun _ hs => absurd hs List.not_mem_nil⟩
  | cons x values ih =>
      rw [sumsOf] at h
      split at h
      · cases h
      · rename_i hpos
        obtain ⟨rest, hrest, h⟩ := exists_of_bind_eq_ok h
        obtain rfl := Except.ok.inj h
        obtain ⟨hincreasing, hwithin⟩ := ih hrest
        rw [List.sum_cons]
        refine ⟨List.pairwise_cons.mpr ⟨fun s hs => (hwithin s hs).1, hincreasing⟩,
          List.forall_mem_cons.mpr ⟨by omega, fun s hs => ?_⟩⟩
        obtain ⟨hlow, hhigh⟩ := hwithin s hs
        omega

/-- The sum of all numbers is the last of the running sums. -/
theorem sum_mem_sumsOf {values sums : List Nat} (hsums : sumsOf 0 0 values = .ok sums)
    (hne : values ≠ []) : values.sum ∈ sums := by
  have hpos := List.length_pos_iff.mpr hne
  obtain ⟨-, -, hget⟩ := sumsOf_spec hsums
  have hlast := hget (values.length - 1) (by omega)
  rw [Nat.sub_add_cancel hpos, List.take_length, Nat.zero_add] at hlast
  exact List.mem_of_getElem? hlast

/-- A universe that the sum of all numbers is below has room for their running sums. -/
theorem sumsOf_ascending {values sums : List Nat} {univ : Nat}
    (hsums : sumsOf 0 0 values = .ok sums) (hne : values ≠ []) (hsum : values.sum < univ)
    (huniv : univ ≤ 2 ^ 32) : Ascending sums univ := by
  obtain ⟨hincreasing, hwithin⟩ := sumsOf_increasing hsums
  refine ⟨List.ne_nil_of_mem (sum_mem_sumsOf hsums hne), hincreasing, fun s hs => ?_, huniv⟩
  have hle := (hwithin s hs).2
  rw [Nat.zero_add] at hle
  exact Nat.lt_of_le_of_lt hle hsum

/-- The sum up to a number exceeds the sum before it by that number. -/
theorem sum_take_succ {values : List Nat} {i : Nat} (hi : i < values.length) :
    (values.take (i + 1)).sum = (values.take i).sum + values[i] := by
  rw [← List.take_append_getElem hi, List.sum_append, List.sum_singleton]

/-! ## Writing -/

variable {format : Format} {values sums : List Nat} {univ : Nat} {params : Params}
  {config : BuildConfig}

/-- What is written is the list of running sums. -/
theorem runFrom_write (hsums : sumsOf 0 0 values = .ok sums) (before : BitString) :
    (write format values univ params config).runFrom before =
      (format.write sums univ params config).runFrom before := by
  rw [write, hsums, Attempt.runFrom_bind, Attempt.runFrom_lift]

/-- A zero is refused before anything is written. -/
theorem runFrom_write_of_zero (h : 0 ∈ values) (before : BitString) :
    (write format values univ params config).runFrom before = (.error (.invalidArgument "values"
      s!"value at position {values.idxOf 0} is zero"), before) := by
  rw [write, sumsOf_eq_error h, Nat.zero_add, Attempt.runFrom_bind, Attempt.runFrom_lift]

/-! ## Walking -/

/-- One move of a cursor over positive numbers. -/
inductive NumberMove where
  | moveTo (position : Nat)
  | next

namespace NumberMove

/-- Where a move leads. -/
def target (position : Nat) : NumberMove → Nat
  | .moveTo position => position
  | .next => position + 1

/-- Where each of the moves leads, one after the other. -/
def targets (position : Nat) : List NumberMove → List Nat
  | [] => []
  | m :: moves => m.target position :: targets (m.target position) moves

end NumberMove

namespace Cursor

/-- One move of a cursor over positive numbers; it answers with the number there. -/
def perform (c : Cursor format) : NumberMove → Except Failure (Nat × Cursor format)
  | .moveTo position => c.moveTo position
  | .next => c.next

/-- Moves one after the other; the answers are the numbers on the way. -/
def run (c : Cursor format) : List NumberMove → Except Failure (List Nat × Cursor format)
  | [] => .ok ([], c)
  | m :: moves => do
      let (number, c) ← c.perform m
      let (numbers, c) ← run c moves
      return (number :: numbers, c)

/-- A cursor stands at a position: the sum there is the sum before it and the number. -/
structure Shows (c : Cursor format) (values : List Nat) (position : Nat) : Prop where
  size_eq : c.size = values.length
  position_eq : c.position = position
  number_eq : ∃ before number, prevValue c.sums = .ok before ∧ values[position]? = some number ∧
    value c.sums = before + number

/-- Every run of moves that stays among the numbers succeeds, answers each move with the
number that it leads to, and ends where the last move led. -/
def Tells (c : Cursor format) (values : List Nat) (position : Nat) : Prop :=
  ∀ moves, (∀ p ∈ NumberMove.targets position moves, p < values.length) →
    ∃ numbers c', c.run moves = .ok (numbers, c') ∧
      (NumberMove.targets position moves).map (values[·]?) = numbers.map some ∧
      c'.Shows values (moves.foldl NumberMove.target position)

/-- A cursor of sums that follows them shows the sum before a number and the sum with it. -/
theorem sums_eq {c : format.Cursor} {position : Nat} (hsums : sumsOf 0 0 values = .ok sums)
    (h : Follows c ⟨sums, univ, position⟩) (hp : position < values.length) :
    prevValue c = .ok (values.take position).sum ∧
      value c = (values.take position).sum + values[position] := by
  obtain ⟨-, -, hget⟩ := sumsOf_spec hsums
  constructor
  · rw [h.agrees.prevValue_eq, Plain.prevValue]
    cases position with
    | zero => rfl
    | succ position =>
        rw [if_neg (Nat.succ_ne_zero position), Nat.add_sub_cancel, hget position (by omega),
          Option.getD_some, Nat.zero_add]
  · rw [h.agrees.value_eq, Plain.value, hget position hp, Option.getD_some, Nat.zero_add,
      sum_take_succ hp]

/-- So the number is read where it stands. -/
theorem read_eq {c : format.Cursor} {position : Nat} (hsums : sumsOf 0 0 values = .ok sums)
    (h : Follows c ⟨sums, univ, position⟩) (hp : position < values.length) :
    (read c : Except Failure (Nat × Cursor format)) = .ok (values[position], ⟨c⟩) := by
  obtain ⟨hprev, hvalue⟩ := sums_eq hsums h hp
  rw [read, hprev, hvalue]
  change Except.ok
    ((values.take position).sum + values[position] - (values.take position).sum, _) = _
  rw [Nat.add_sub_cancel_left]

variable {c : Cursor format} {position : Nat}

theorem shows (hsums : sumsOf 0 0 values = .ok sums) (h : Follows c.sums ⟨sums, univ, position⟩)
    (hp : position < values.length) : c.Shows values position where
  size_eq := h.agrees.size_eq.trans (sumsOf_spec hsums).1
  position_eq := h.agrees.position_eq
  number_eq := by
    obtain ⟨hprev, hvalue⟩ := sums_eq hsums h hp
    exact ⟨_, values[position], hprev, List.getElem?_eq_getElem hp, hvalue⟩

/-- A cursor whose cursor of sums follows them tells the numbers. -/
theorem moveTo_eq {before : Nat} (hsums : sumsOf 0 0 values = .ok sums)
    (h : Follows c.sums ⟨sums, univ, before⟩) (hp : position < values.length) :
    ∃ c', c.moveTo position = .ok (values[position], c') ∧
      Follows c'.sums ⟨sums, univ, position⟩ := by
  obtain ⟨hlength, -⟩ := sumsOf_spec hsums
  obtain ⟨moved, hmove, hfollows⟩ := h.moveTo (show position ≤ sums.length by omega)
  refine ⟨⟨moved⟩, ?_, hfollows⟩
  rw [moveTo, hmove]
  exact read_eq hsums hfollows hp

theorem next_eq (hsums : sumsOf 0 0 values = .ok sums) (h : Follows c.sums ⟨sums, univ, position⟩)
    (hp : position + 1 < values.length) :
    ∃ c', c.next = .ok (values[position + 1], c') ∧
      Follows c'.sums ⟨sums, univ, position + 1⟩ := by
  obtain ⟨hlength, -⟩ := sumsOf_spec hsums
  obtain ⟨moved, hmove, hfollows⟩ := h.next (show position < sums.length by omega)
  refine ⟨⟨moved⟩, ?_, hfollows⟩
  rw [next, hmove]
  exact read_eq hsums hfollows hp

/-- A move among the numbers answers with the number that it leads to. -/
theorem perform_eq (hsums : sumsOf 0 0 values = .ok sums)
    (h : Follows c.sums ⟨sums, univ, position⟩) {m : NumberMove}
    (hm : m.target position < values.length) :
    ∃ c', c.perform m = .ok (values[m.target position], c') ∧
      Follows c'.sums ⟨sums, univ, m.target position⟩ := by
  cases m with
  | moveTo position => exact moveTo_eq hsums h hm
  | next => exact next_eq hsums h hm

/-- So does a run of them, a move at a time. -/
theorem tells (hsums : sumsOf 0 0 values = .ok sums) (h : Follows c.sums ⟨sums, univ, position⟩)
    (hp : position < values.length) : c.Tells values position := by
  intro moves
  induction moves generalizing c position with
  | nil =>
      intro _
      exact ⟨[], c, rfl, rfl, shows hsums h hp⟩
  | cons m moves ih =>
      intro hmoves
      obtain ⟨hm, hmoves⟩ := List.forall_mem_cons.mp hmoves
      obtain ⟨c', hc', hfollows⟩ := perform_eq hsums h hm
      obtain ⟨numbers, last, hrun, hnumbers, hshows⟩ := ih hfollows hm hmoves
      refine ⟨values[m.target position] :: numbers, last, ?_, ?_, hshows⟩
      · rw [run, hc']
        change (do
          let (numbers, c) ← c'.run moves
          return (values[m.target position] :: numbers, c)) = _
        rw [hrun]
        rfl
      · rw [NumberMove.targets, List.map_cons, hnumbers, List.getElem?_eq_getElem hm, List.map_cons]

end Cursor

/-! ## Reading back -/

/-- **Positive numbers read back** in every format that keeps ascending lists, and a list
with a zero is refused without a trace. -/
theorem numbers_read_back (hformat : format.Faithful params config) :
    (∀ values univ, values ≠ [] → (∀ x ∈ values, 0 < x) → values.sum < univ → univ ≤ 2 ^ 32 →
      ∀ before, ∃ bits,
        (write format values univ params config).runFrom before = (.ok (), bits) ∧
        bits.Extends before ∧
        ∀ frozen : BitString, frozen.Extends bits → ∃ c,
          openAt format frozen before.size univ values.length params = .ok c ∧
          c.size = values.length ∧ c.Tells values 0) ∧
    ∀ values univ, 0 ∈ values → ∀ before,
      (write format values univ params config).runFrom before = (.error (.invalidArgument "values"
        s!"value at position {values.idxOf 0} is zero"), before) := by
  refine ⟨fun values univ hne hpositive hsum huniv before => ?_,
    fun values univ hzero before => runFrom_write_of_zero hzero before⟩
  obtain ⟨sums, hsums⟩ := exists_sumsOf hpositive 0 0
  have hstored := sumsOf_ascending hsums hne hsum huniv
  obtain ⟨bits, hwrite⟩ := hformat.accepts hstored before
  have hgrown := hformat.grows hstored hwrite
  refine ⟨bits, by rw [runFrom_write hsums, hwrite], hgrown, fun frozen hfrozen => ?_⟩
  obtain ⟨c, hopen, hfollows⟩ := hformat.opens hstored hwrite frozen before.size rfl
    (.of_extends hfrozen hgrown.size_le)
  rw [(sumsOf_spec hsums).1] at hopen
  have hpos := List.length_pos_iff.mpr hne
  refine ⟨⟨c⟩, ?_, (Cursor.shows hsums hfollows hpos).size_eq, Cursor.tells hsums hfollows hpos⟩
  rw [openAt, hopen]
  rfl

/-- Partitions of two numbers each, walked over their boundaries and back. -/
theorem numbers_read_back_of_five :
    let format := Partitioned.uniform (GapBlocks.format .vbyte) FixedWidth.format
    let params : Params := { partitionLog := 1 }
    let before := BitString.empty.appendBits 5 3
    format.Faithful params {} ∧
    ∃ bits c c', (write format [3, 1, 4, 1, 5] 15 params {}).runFrom before = (.ok (), bits) ∧
      openAt format bits 3 15 5 params = .ok c ∧
      c.run [.next, .next, .moveTo 4, .moveTo 2, .next] = .ok ([1, 4, 5, 4, 1], c') ∧
      c'.Shows [3, 1, 4, 1, 5] 3 := by
  intro format params before
  have hformat : format.Faithful params {} :=
    (Shipped.uniform (.gapBlocks .vbyte) (by decide) (.inr rfl)).faithful (by decide +kernel)
      (by decide +kernel)
  obtain ⟨hkeeps, -⟩ := numbers_read_back hformat
  obtain ⟨bits, hwrite, -, hopens⟩ := hkeeps [3, 1, 4, 1, 5] 15 (by decide) (by decide) (by decide)
    (by decide) before
  obtain ⟨c, hopen, -, htells⟩ := hopens bits (.refl bits)
  obtain ⟨numbers, c', hrun, hnumbers, hshows⟩ :=
    htells [.next, .next, .moveTo 4, .moveTo 2, .next] (by decide)
  obtain rfl : [1, 4, 5, 4, 1] = numbers :=
    (List.map_inj_right fun _ _ => Option.some.inj).mp hnumbers
  exact ⟨hformat, bits, c, c', hwrite, hopen, hrun, hshows⟩

end PrefixSums
end Postings
