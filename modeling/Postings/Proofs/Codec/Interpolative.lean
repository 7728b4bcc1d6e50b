import Mathlib.Data.List.Infix
import Postings.Codec.Interpolative
import Postings.Proofs.Bits.Spelling
import Postings.Proofs.Codec.Bytes

/-!
# The interpolative code, read back

A reader of bits is followed by counting the bits it has consumed: at `b` bits it
has taken the fewest bytes that hold them and what is left of the last byte is
pending (`BitInput.after`).  A reading *consumes* a list of bits when it carries
the reader over them; code words follow one another, so readings in sequence
consume what their code words add up to.  The bits of a bisection are consumed by
its inverse, which is an induction along the bisection.

The sums of a run determine it: its values are their differences.
-/

namespace Postings

/-! ## Packed bits -/

/-- Bits that do not fill a byte are followed by zeros. -/
theorem lowFirst_add (bits : List Bool) (k : Nat) :
    lowFirst (bits.length + k) (ofLowFirst bits) = bits ++ List.replicate k false := by
  apply List.ext_getElem?
  intro i
  rw [lowFirst_getElem?, testBit_ofLowFirst, List.getElem?_append, List.getElem?_replicate]
  by_cases hi : i < bits.length
  · rw [if_pos (by omega), if_pos hi, List.getElem?_eq_getElem hi, Option.getD_some]
  · rw [if_neg hi, List.getElem?_eq_none (by omega), Option.getD_none]
    by_cases hk : i < bits.length + k
    · rw [if_pos hk, if_pos (by omega)]
    · rw [if_neg hk, if_neg (by omega)]

theorem length_packBits (bits : List Bool) : (packBits bits).length = (bits.length + 7) / 8 := by
  fun_induction packBits bits with
  | case1 => rfl
  | case2 b bits ih =>
      rw [List.length_cons, ih, List.length_drop, List.length_cons]
      omega

/-- Packed bits are the first bits of the bytes. -/
theorem prefix_bitsOf_packBits (bits : List Bool) : bits <+: bitsOf (packBits bits) := by
  fun_induction packBits bits with
  | case1 => exact List.nil_prefix
  | case2 b bits ih =>
      have hbyte : (ofLowFirst (b :: bits.take 7)).toUInt8.toNat =
          ofLowFirst (b :: bits.take 7) := by
        rw [Nat.toUInt8, UInt8.toNat_ofNat', Nat.mod_eq_of_lt]
        refine Nat.lt_of_lt_of_le (ofLowFirst_lt _) (Nat.pow_le_pow_right (by omega) ?_)
        rw [List.length_cons, List.length_take]
        omega
      rw [bitsOf_cons, hbyte]
      rcases Nat.le_total 7 bits.length with h | h
      · have hlen : (b :: bits.take 7).length = 8 := by
          rw [List.length_cons, List.length_take]
          omega
        have hspell := lowFirst_ofLowFirst (b :: bits.take 7)
        rw [hlen] at hspell
        obtain ⟨rest, hrest⟩ := ih
        refine ⟨rest, ?_⟩
        rw [hspell, ← hrest, List.cons_append, List.cons_append, ← List.append_assoc,
          List.take_append_drop]
      · obtain ⟨k, hk⟩ : ∃ k, (b :: bits.take 7).length + k = 8 := by
          refine ⟨8 - (b :: bits.take 7).length, ?_⟩
          rw [List.length_cons, List.length_take]
          omega
        have hspell := lowFirst_add (b :: bits.take 7) k
        rw [hk, List.take_of_length_le h] at hspell
        rw [List.take_of_length_le h, hspell, List.append_assoc]
        exact List.prefix_append _ _

/-! ## Consuming bits -/

namespace BitInput

/-- The state of a reader that has consumed the first `b` bits of some bytes. -/
def after (bytes : List UInt8) (b : Nat) : BitInput :=
  ⟨((bitsOf bytes).take (8 * ((b + 7) / 8))).drop b, (b + 7) / 8, bytes.drop ((b + 7) / 8)⟩

theorem start_eq_after (bytes : List UInt8) : start bytes = after bytes 0 := by
  simp [start, after]

/-- Refilling takes as few bytes as are needed. -/
theorem refill_eq {len : Nat} {pending : List Bool} {taken : Nat} {rest : List UInt8}
    (h : len ≤ pending.length + 8 * rest.length) :
    refill len pending taken rest =
      .ok ⟨pending ++ bitsOf (rest.take ((len - pending.length + 7) / 8)),
        taken + (len - pending.length + 7) / 8, rest.drop ((len - pending.length + 7) / 8)⟩ := by
  induction rest generalizing pending taken with
  | nil =>
      have hlen : len ≤ pending.length := by simpa using h
      rw [refill, if_pos hlen]
      simp [hlen, bitsOf]
  | cons byte rest ih =>
      rw [refill]
      by_cases hlen : len ≤ pending.length
      · simp [hlen, bitsOf]
      · have hpending : (pending ++ lowFirst 8 byte.toNat).length = pending.length + 8 := by simp
        have hcount : (len - pending.length + 7) / 8 =
            (len - (pending.length + 8) + 7) / 8 + 1 := by
          omega
        rw [if_neg hlen, ih (by rw [hpending]; simp at h; omega), hpending, hcount,
          List.take_succ_cons, List.drop_succ_cons, bitsOf_cons, List.append_assoc, Nat.add_assoc,
          Nat.add_comm 1]

end BitInput

/-- The reading carries a reader over these bits and answers with the value. -/
def Consumes {α : Type} (reading : Attempt BitInput α) (bits : List Bool) (answer : α) : Prop :=
  ∀ bytes b, b ≤ 8 * bytes.length → bits <+: (bitsOf bytes).drop b →
    Attempt.runFrom reading (.after bytes b) = (.ok answer, .after bytes (b + bits.length))

namespace Consumes

variable {α β : Type}

theorem pure (a : α) : Consumes (Pure.pure a) [] a := by
  intro bytes b _ _
  rfl

theorem length_le {bits : List Bool} {bytes : List UInt8} {b : Nat} (hb : b ≤ 8 * bytes.length)
    (h : bits <+: (bitsOf bytes).drop b) : b + bits.length ≤ 8 * bytes.length := by
  have := h.length_le
  rw [List.length_drop, length_bitsOf] at this
  omega

/-- Readings in sequence consume their bits in sequence. -/
theorem bind {x : Attempt BitInput α} {f : α → Attempt BitInput β} {s t : List Bool} {a : α} {b : β}
    (hx : Consumes x s a) (hf : Consumes (f a) t b) : Consumes (x >>= f) (s ++ t) b := by
  intro bytes p hp h
  obtain ⟨rest, hrest⟩ := h
  have hfirst : s <+: (bitsOf bytes).drop p := ⟨t ++ rest, by rw [← List.append_assoc, hrest]⟩
  have hsecond : t <+: (bitsOf bytes).drop (p + s.length) := by
    refine ⟨rest, ?_⟩
    rw [← List.drop_drop, ← hrest, List.append_assoc, List.drop_left]
  rw [Attempt.runFrom_bind, hx bytes p hp hfirst]
  simp only
  rw [hf bytes _ (length_le hp hfirst) hsecond, List.length_append, Nat.add_assoc]

/-- A last step that only changes the answer consumes nothing. -/
theorem bind_pure {x : Attempt BitInput α} {s : List Bool} {a : α} (hx : Consumes x s a)
    (f : α → β) : Consumes (x >>= fun a => Pure.pure (f a)) s (f a) := by
  have h := hx.bind (f := fun a => Pure.pure (f a)) (pure (f a))
  rwa [List.append_nil] at h

end Consumes

/-- The next bits are consumed as the number that they spell. -/
theorem consumes_nextBits (bits : List Bool) :
    Consumes (nextBits bits.length) bits (ofLowFirst bits) := by
  intro bytes b hb h
  have hlen := Consumes.length_le hb h
  have hpending : (BitInput.after bytes b).pending.length = 8 * ((b + 7) / 8) - b := by
    simp only [BitInput.after, List.length_drop, List.length_take, length_bitsOf]
    omega
  have hrest : (BitInput.after bytes b).rest.length = bytes.length - (b + 7) / 8 := by
    simp only [BitInput.after, List.length_drop]
  have hcount : (b + 7) / 8 + (bits.length - (8 * ((b + 7) / 8) - b) + 7) / 8 =
      (b + bits.length + 7) / 8 := by
    omega
  have hfilled : (BitInput.after bytes b).pending ++ bitsOf ((BitInput.after bytes b).rest.take
      ((bits.length - (8 * ((b + 7) / 8) - b) + 7) / 8)) =
      ((bitsOf bytes).take (8 * ((b + bits.length + 7) / 8))).drop b := by
    have hfits : b ≤ ((bitsOf bytes).take (8 * ((b + 7) / 8))).length := by
      rw [List.length_take, length_bitsOf]
      omega
    rw [← hcount, Nat.mul_add, List.take_add, List.drop_append_of_le_length hfits, drop_bitsOf,
      take_bitsOf (bytes.drop _)]
    rfl
  have htake : (((bitsOf bytes).take (8 * ((b + bits.length + 7) / 8))).drop b).take bits.length =
      bits := by
    obtain ⟨rest, hrest⟩ := h
    rw [List.take_drop, List.take_take, Nat.min_eq_left (by omega), ← List.take_drop, ← hrest,
      List.take_left]
  simp only [nextBits, Attempt.runFrom_bind, Attempt.runFrom_get, Attempt.runFrom_lift,
    BitInput.refill_eq (show bits.length ≤ _ by rw [hpending, hrest]; omega),
    Attempt.runFrom_set, Attempt.runFrom_pure, hpending, hfilled, htake, Prod.mk.injEq, true_and]
  simp only [BitInput.after, hcount, List.drop_drop]

/-! ## Truncated binary -/

/-- A code word is one field, or one field and a bit. -/
theorem truncatedBinary_eq {x range : Nat} (hone : 1 < range) (h : x < range) :
    let width := ceilLog2 range
    let short := 2 ^ width - range
    (x < short ∧ x < 2 ^ (width - 1) ∧ truncatedBinary x range = lowFirst (width - 1) x) ∨
    (short ≤ x ∧ short + (x - short) / 2 < 2 ^ (width - 1) ∧
      truncatedBinary x range = lowFirst (width - 1) (short + (x - short) / 2) ++
        lowFirst 1 ((x - short) % 2)) := by
  intro width short
  have hwidth : 2 ^ width = 2 * 2 ^ (width - 1) := two_pow_ceilLog2_eq hone
  have hlt : 2 ^ (width - 1) < range := two_pow_ceilLog2_lt hone
  have hle : range ≤ 2 ^ width := le_two_pow_ceilLog2 range
  rw [truncatedBinary, if_neg (by omega)]
  by_cases hx : x < short
  · exact .inl ⟨hx, by omega, if_pos hx⟩
  · refine .inr ⟨by omega, by omega, (if_neg hx).trans ?_⟩
    congr 1
    rcases Nat.mod_two_eq_zero_or_one (x - short) with hbit | hbit <;> rw [hbit] <;> rfl

/-- The code word of a symbol is consumed as the symbol. -/
theorem consumes_nextTruncatedBinary {x range : Nat} (h : x < range) :
    Consumes (nextTruncatedBinary range) (truncatedBinary x range) x := by
  rw [nextTruncatedBinary]
  by_cases hrange : range ≤ 1
  · rw [if_pos hrange, truncatedBinary, if_pos hrange, show x = 0 by omega]
    exact .pure 0
  rw [if_neg hrange]
  have hfield : ∀ {w y}, y < 2 ^ w → Consumes (nextBits w) (lowFirst w y) y := by
    intro w y hy
    have := consumes_nextBits (lowFirst w y)
    rwa [length_lowFirst, ofLowFirst_lowFirst, Nat.mod_eq_of_lt hy] at this
  have hcases := truncatedBinary_eq (Nat.not_le.mp hrange) h
  simp only at hcases ⊢
  generalize 2 ^ ceilLog2 range - range = short at hcases ⊢
  obtain ⟨hx, hlt, hword⟩ | ⟨hle, hlt, hword⟩ := hcases
  · rw [hword]
    have := (hfield hlt).bind (t := []) (f := fun y =>
      if y < short then Pure.pure y
      else do return short + (2 * (y - short) + (← nextBits 1)))
      (b := x) (by rw [if_pos hx]; exact .pure x)
    rwa [List.append_nil] at this
  · rw [hword]
    refine (hfield hlt).bind ?_
    rw [if_neg (by omega)]
    have hbit := (hfield (show (x - short) % 2 < 2 ^ 1 by omega)).bind_pure fun bit =>
      short + (2 * (short + (x - short) / 2 - short) + bit)
    have hsplit : short + (2 * (short + (x - short) / 2 - short) + (x - short) % 2) = x := by
      omega
    rwa [hsplit] at hbit

/-! ## Bisection -/

namespace Interpolative

/-- Sums in order, cut at one of them. -/
theorem pairwise_cut {sums : List Nat} (hsorted : sums.Pairwise (· ≤ ·)) {k : Nat}
    (h : k < sums.length) :
    (sums.take k).Pairwise (· ≤ ·) ∧ (sums.drop (k + 1)).Pairwise (· ≤ ·) ∧
      (∀ s ∈ sums.take k, s ≤ sums[k]) ∧ ∀ s ∈ sums.drop (k + 1), sums[k] ≤ s := by
  have hpair := hsorted
  rw [← List.take_append_drop k sums, List.drop_eq_getElem_cons h, List.pairwise_append,
    List.pairwise_cons] at hpair
  obtain ⟨hleft, ⟨habove, hright⟩, hacross⟩ := hpair
  exact ⟨hleft, hright, fun s hs => hacross s hs _ (.head _), habove⟩

/-- Sums that lie between two bounds and do not go down are consumed. -/
theorem consumes_unbisect {sums : List Nat} {low high : Nat} (hsorted : sums.Pairwise (· ≤ ·))
    (hlow : ∀ s ∈ sums, low ≤ s) (hhigh : ∀ s ∈ sums, s ≤ high) :
    Consumes (unbisect sums.length low high) (bisect sums low high) sums := by
  fun_induction bisect sums low high with
  | case1 sums low high h =>
      rw [unbisect]
      rcases h with rfl | rfl
      · exact .pure []
      · have hall : sums = List.replicate sums.length low :=
          List.eq_replicate_iff.mpr
            ⟨rfl, fun s hs => Nat.le_antisymm (hhigh s hs) (hlow s hs)⟩
        split
        · rename_i hlen
          rw [List.length_eq_zero_iff.mp hlen]
          exact .pure []
        · rw [if_pos rfl]
          rw [← hall]
          exact .pure sums
  | case2 sums low high h half middle ihleft ihright =>
      have hne : sums.length ≠ 0 := fun h0 => h (.inl (List.length_eq_zero_iff.mp h0))
      have hhalf : half < sums.length := by omega
      have hmiddle : middle = sums[half] := by simp [middle, hhalf]
      have hsplit : sums = sums.take half ++ middle :: sums.drop (half + 1) := by
        rw [hmiddle, List.getElem_cons_drop, List.take_append_drop]
      have hmem : middle ∈ sums := hmiddle ▸ List.getElem_mem hhalf
      obtain ⟨hleft, hright, hbelow, habove⟩ := pairwise_cut hsorted hhalf
      rw [← hmiddle] at hbelow habove
      have hcl := ihleft hleft (fun s hs => hlow s (List.mem_of_mem_take hs)) hbelow
      have hcr := ihright hright habove (fun s hs => hhigh s (List.mem_of_mem_drop hs))
      rw [List.length_take, Nat.min_eq_left (by omega)] at hcl
      rw [List.length_drop, show sums.length - (half + 1) = sums.length - half - 1 by omega] at hcr
      rw [unbisect, if_neg hne, if_neg (fun heq => h (.inr heq))]
      have hlm := hlow middle hmem
      have hmh := hhigh middle hmem
      refine (consumes_nextTruncatedBinary (by omega)).bind ?_
      rw [show low + (middle - low) = middle by omega]
      refine hcl.bind ?_
      have hall := hcr.bind_pure fun right => sums.take half ++ middle :: right
      rwa [← hsplit] at hall

/-! ## Sums of a run -/

/-- What running sums are: they go up from where they start to the total, and the
values are their differences. -/
theorem runningSums_spec {sum : Nat} {values sums : List Nat}
    (h : runningSums sum values = .ok sums) :
    sums.length = values.length ∧ differences sum sums = values ∧
      sums.Pairwise (· ≤ ·) ∧ (∀ s ∈ sums, sum ≤ s ∧ s < 2 ^ 32) ∧
      sums.getLastD sum = sum + values.sum := by
  induction values generalizing sum sums with
  | nil =>
      obtain rfl := Except.ok.inj h
      simp [differences]
  | cons x values ih =>
      rw [runningSums] at h
      split at h
      · cases h
      · rename_i hfit
        obtain ⟨rest, hrest, h⟩ := exists_of_bind_eq_ok h
        obtain rfl := Except.ok.inj h
        obtain ⟨hlen, hdiff, hsorted, hbounds, hlast⟩ := ih hrest
        refine ⟨by simp [hlen], ?_, ?_, ?_, ?_⟩
        · rw [differences, hdiff, Nat.add_sub_cancel_left]
        · exact List.pairwise_cons.mpr ⟨fun s hs => (hbounds s hs).1, hsorted⟩
        · intro s hs
          rcases List.mem_cons.mp hs with rfl | hs
          · omega
          · have := hbounds s hs
            omega
        · rw [List.getLastD_cons, hlast, List.sum_cons, Nat.add_assoc]

/-- Running sums exist when the total fits 32 bits. -/
theorem exists_runningSums {sum : Nat} {values : List Nat} (h : sum + values.sum < 2 ^ 32) :
    ∃ sums, runningSums sum values = .ok sums := by
  induction values generalizing sum with
  | nil => exact ⟨[], rfl⟩
  | cons x values ih =>
      rw [List.sum_cons] at h
      obtain ⟨rest, hrest⟩ := @ih (sum + x) (by omega)
      refine ⟨(sum + x) :: rest, ?_⟩
      rw [runningSums, if_neg (by omega), hrest]
      rfl

/-! ## Runs -/

/-- A run whose sum fits 32 bits is accepted without a hint. -/
theorem exists_encode {values : List Nat} (h : values.sum < 2 ^ 32) :
    ∃ bytes, encode values none = .ok bytes := by
  obtain ⟨sums, hsums⟩ := @exists_runningSums 0 values (by omega)
  rw [encode]
  cases values with
  | nil => exact ⟨[], rfl⟩
  | cons x values =>
      simp only [List.isEmpty_cons, Bool.false_eq_true, if_false, hsums]
      exact ⟨_, rfl⟩

/-- What is left of the sums of a run when the last is taken away, and the last. -/
theorem dropLast_append_last {sums : List Nat} (h : sums ≠ []) :
    sums.dropLast ++ [sums.getLastD 0] = sums := by
  rw [List.getLastD_eq_getLast?, List.getLast?_eq_some_getLast h, Option.getD_some,
    List.dropLast_append_getLast]

/-- A run has as many sums as values, so one that is not empty has a last sum. -/
theorem runningSums_ne_nil {sum : Nat} {values sums : List Nat}
    (h : runningSums sum values = .ok sums) (hvalues : values ≠ []) : sums ≠ [] := by
  rintro rfl
  exact hvalues (List.length_eq_zero_iff.mp (runningSums_spec h).1.symm)

/-- The sums but the last do not go down and do not pass the last, which fits 32 bits. -/
theorem runningSums_others {values sums : List Nat} (hsums : runningSums 0 values = .ok sums)
    (hne : sums ≠ []) :
    sums.dropLast.Pairwise (· ≤ ·) ∧ (∀ s ∈ sums.dropLast, s ≤ sums.getLastD 0) ∧
      sums.getLastD 0 < 2 ^ 32 := by
  obtain ⟨-, -, hsorted, hbounds, -⟩ := runningSums_spec hsums
  have hpair := hsorted
  rw [← dropLast_append_last hne, List.pairwise_append] at hpair
  refine ⟨hpair.1, fun s hs => hpair.2.2 s hs _ (List.mem_singleton.mpr rfl), ?_⟩
  rw [List.getLastD_eq_getLast?, List.getLast?_eq_some_getLast hne, Option.getD_some]
  exact (hbounds _ (List.getLast_mem hne)).2

/-- The sums but the last are read from the packed bits of their bisection. -/
theorem runFrom_unbisect {values sums : List Nat} (hsums : runningSums 0 values = .ok sums)
    (hne : sums ≠ []) (rest : List UInt8) :
    ∃ input : BitInput,
      Attempt.runFrom (unbisect (values.length - 1) 0 (sums.getLastD 0))
        (.start (packBits (bisect sums.dropLast 0 (sums.getLastD 0)) ++ rest)) =
          (.ok sums.dropLast, input) ∧
        input.taken = (packBits (bisect sums.dropLast 0 (sums.getLastD 0))).length := by
  obtain ⟨hlen, -⟩ := runningSums_spec hsums
  obtain ⟨hsorted, hlast, -⟩ := runningSums_others hsums hne
  have hconsumes := consumes_unbisect hsorted (fun s _ => Nat.zero_le s) hlast
  rw [List.length_dropLast, hlen] at hconsumes
  refine ⟨.after (packBits (bisect sums.dropLast 0 (sums.getLastD 0)) ++ rest)
    (0 + (bisect sums.dropLast 0 (sums.getLastD 0)).length), ?_, ?_⟩
  · rw [BitInput.start_eq_after]
    refine hconsumes _ 0 (Nat.zero_le _) ?_
    rw [List.drop_zero, bitsOf_append]
    exact (prefix_bitsOf_packBits _).trans (List.prefix_append _ _)
  · rw [BitInput.after, Nat.zero_add, length_packBits]

/-- Once the total is known, the values follow from the packed bits. -/
theorem decode_of_total {values sums : List Nat} (hsums : runningSums 0 values = .ok sums)
    (hne : sums ≠ []) (taken : Nat) (rest : List UInt8) :
    (match Attempt.runFrom (unbisect (values.length - 1) 0 (sums.getLastD 0))
        (.start (packBits (bisect sums.dropLast 0 (sums.getLastD 0)) ++ rest)) with
      | (.ok others, bits) =>
          (.ok (differences 0 (others ++ [sums.getLastD 0]), taken + bits.taken) :
            Except Error (List Nat × Nat))
      | (.error e, _) => .error e) =
      .ok (values, taken + (packBits (bisect sums.dropLast 0 (sums.getLastD 0))).length) := by
  obtain ⟨input, hrun, htaken⟩ := runFrom_unbisect hsums hne rest
  rw [hrun]
  simp only [htaken, dropLast_append_last hne, (runningSums_spec hsums).2.1]

/-- What an accepted run was written as: its total, unless that is known, and the
bisection of the other sums. -/
theorem encode_cons_eq_ok {x : Nat} {values : List Nat} {hint : Option Nat} {bytes : List UInt8}
    (h : encode (x :: values) hint = .ok bytes) :
    ∃ sums, runningSums 0 (x :: values) = .ok sums ∧ sums ≠ [] ∧ sums.getLastD 0 < 2 ^ 32 ∧
      ((hint = none ∧ bytes = Base128.terminated.encodeOne (sums.getLastD 0) ++
          packBits (bisect sums.dropLast 0 (sums.getLastD 0))) ∨
        (hint = some (sums.getLastD 0) ∧
          bytes = packBits (bisect sums.dropLast 0 (sums.getLastD 0)))) := by
  rw [encode] at h
  simp only [List.isEmpty_cons, Bool.false_eq_true, if_false] at h
  cases hsums : runningSums 0 (x :: values) with
  | error e =>
      rw [hsums] at h
      cases h
  | ok sums =>
      rw [hsums] at h
      have hne := runningSums_ne_nil hsums (List.cons_ne_nil x values)
      obtain ⟨-, -, hlast⟩ := runningSums_others hsums hne
      refine ⟨sums, rfl, hne, hlast, ?_⟩
      cases hint with
      | none => exact .inl ⟨rfl, (Except.ok.inj h).symm⟩
      | some hint =>
          by_cases hhint : hint = sums.getLastD 0
          · subst hhint
            simp only [bind, Except.bind, pure, Except.pure, if_true] at h
            exact .inr ⟨rfl, (Except.ok.inj h).symm⟩
          · simp only [bind, Except.bind, hhint, if_false] at h
            cases h

/-- A run is accepted exactly when its sum fits 32 bits and a hint, if there is one, is
that sum. -/
theorem exists_encode_cons_iff {x : Nat} {values : List Nat} {hint : Option Nat} :
    (∃ bytes, encode (x :: values) hint = .ok bytes) ↔
      (x :: values).sum < 2 ^ 32 ∧ ∀ total, hint = some total → total = (x :: values).sum := by
  constructor
  · rintro ⟨bytes, h⟩
    obtain ⟨sums, hsums, -, hlast, hhint⟩ := encode_cons_eq_ok h
    obtain ⟨-, -, -, -, htotal⟩ := runningSums_spec hsums
    rw [Nat.zero_add] at htotal
    refine ⟨htotal ▸ hlast, fun total hsome => ?_⟩
    rcases hhint with ⟨hnone, -⟩ | ⟨hknown, -⟩
    · rw [hnone] at hsome
      cases hsome
    · rw [hsome] at hknown
      exact (Option.some.inj hknown).trans htotal
  · rintro ⟨hfits, hhint⟩
    obtain ⟨sums, hsums⟩ := @exists_runningSums 0 (x :: values) (by rwa [Nat.zero_add])
    obtain ⟨-, -, -, -, htotal⟩ := runningSums_spec hsums
    rw [Nat.zero_add] at htotal
    rw [encode]
    simp only [List.isEmpty_cons, Bool.false_eq_true, if_false, hsums, bind, Except.bind, htotal]
    cases hint with
    | none => exact ⟨_, rfl⟩
    | some total =>
        simp only [if_pos (hhint total rfl)]
        exact ⟨_, rfl⟩

/-- A run that was accepted is read back, with the hint that it was written with, and
exactly its bytes are consumed. -/
theorem decode_encode {values : List Nat} {hint : Option Nat} {bytes : List UInt8}
    (h : encode values hint = .ok bytes) (rest : List UInt8) :
    decode (bytes ++ rest) values.length hint = .ok (values, bytes.length) := by
  cases values with
  | nil =>
      obtain rfl := Except.ok.inj h
      rfl
  | cons x values =>
      obtain ⟨sums, hsums, hne, hlast, ⟨rfl, rfl⟩ | ⟨rfl, rfl⟩⟩ := encode_cons_eq_ok h
      · have htotal := Base128.terminated.takes_decodeOne hlast 0
          (packBits (bisect sums.dropLast 0 (sums.getLastD 0)) ++ rest)
        rw [decode, List.append_assoc, ByteInput.start, htotal, List.length_append]
        have := decode_of_total hsums hne
          (0 + (Base128.terminated.encodeOne (sums.getLastD 0)).length) rest
        rw [Nat.zero_add] at this ⊢
        exact this
      · have := decode_of_total hsums hne 0 rest
        rw [Nat.zero_add] at this
        exact this

end Interpolative
end Postings
