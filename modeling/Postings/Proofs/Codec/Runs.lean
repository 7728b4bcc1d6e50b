import Mathlib.Algebra.GroupWithZero.Nat
import Mathlib.Algebra.Order.BigOperators.Group.List
import Mathlib.Algebra.Order.Group.Nat
import Postings.Proofs.Checked
import Postings.Proofs.Codec.Exact

/-!
# Decoders answer with runs

Whatever bytes a decoder is given, it refuses them or finds a run: as many values as it was
asked for, each of 32 bits.  What is known of an answer is put together from what is known
of the answers on the way (`Attempt.Answers`), so the numbers add up as the decoders recurse.
A group that marks where values end holds one value at least, because a descriptor without
marks is refused; so there are never too few groups.

A symbol that is read is one of those that were possible.  So bisection answers with sums
that do not go down and stay within its bounds, whatever bits it is given, and the values
that are their differences add up to the sum of the run.
-/

namespace Postings

open Attempt (Answers)

theorem nextBytes_length (codec : String) (count : Nat) :
    Answers (nextBytes codec count) (·.length = count) := by
  refine ⟨fun {input bytes after} hrun => ?_⟩
  rw [runFrom_nextBytes] at hrun
  split at hrun
  · cases hrun
  · rename_i henough
    obtain rfl := Except.ok.inj (congrArg Prod.fst hrun)
    rw [List.length_take]
    omega

/-! ## Runs -/

/-- As many values as were asked for, each of 32 bits. -/
structure IsRun (n : Nat) (values : List Nat) : Prop where
  length_eq : values.length = n
  lt : ∀ v ∈ values, v < 2 ^ 32

namespace IsRun

theorem nil : IsRun 0 [] :=
  ⟨rfl, fun _ hv => absurd hv List.not_mem_nil⟩

theorem cons {n v : Nat} {values : List Nat} (hv : v < 2 ^ 32) (h : IsRun n values) :
    IsRun (n + 1) (v :: values) :=
  ⟨congrArg (· + 1) h.length_eq, List.forall_mem_cons.mpr ⟨hv, h.lt⟩⟩

theorem append {m n : Nat} {first second : List Nat} (hfirst : IsRun m first)
    (hsecond : IsRun n second) : IsRun (m + n) (first ++ second) :=
  ⟨by rw [List.length_append, hfirst.length_eq, hsecond.length_eq],
    List.forall_mem_append.mpr ⟨hfirst.lt, hsecond.lt⟩⟩

end IsRun

theorem decodeTimes_isRun {one : Decoding Nat} (h : Answers one (· < 2 ^ 32)) (n : Nat) :
    Answers (decodeTimes one n) (IsRun n) := by
  induction n with
  | zero => exact .pure .nil
  | succ n ih =>
      exact h.bind fun value hvalue => ih.bind fun values hvalues => .pure (hvalues.cons hvalue)

theorem Base128.decodeOne_lt (form : Base128) : Answers form.decodeOne (· < 2 ^ 32) := by
  rw [decodeOne]
  refine (Answers.any _).bind fun value _ => ?_
  split
  · exact .throw_bind _ _
  · rename_i hfits
    exact .pure (Nat.not_le.mp hfits)

/-! ## Values of one to four bytes -/

theorem ofLeBytes_lt_of_length_le_four {bytes : List UInt8} (h : bytes.length ≤ 4) :
    ofLeBytes bytes < 2 ^ 32 :=
  Nat.lt_of_lt_of_le (ofLeBytes_lt bytes) (Nat.pow_le_pow_right (by decide) h)

theorem valuesOfLengths_isRun (codec : String) (lengths n : Nat) :
    Answers (valuesOfLengths codec lengths n) (IsRun n) := by
  induction n generalizing lengths with
  | zero => exact .pure .nil
  | succ n ih =>
      refine (nextBytes_length _ _).bind fun bytes hbytes => (ih _).bind fun values hvalues =>
        .pure (hvalues.cons (ofLeBytes_lt_of_length_le_four ?_))
      omega

theorem GroupVarint.decode_isRun (n : Nat) : Answers (GroupVarint.decode n) (IsRun n) := by
  fun_induction GroupVarint.decode n with
  | case1 => exact .pure .nil
  | case2 n hn ih =>
      refine (Answers.any _).bind fun lengths _ => (valuesOfLengths_isRun _ _ _).bind
        fun group hgroup => ih.bind fun values hvalues => .pure ?_
      have hrun := hgroup.append hvalues
      rwa [show min n 4 + (n - 4) = n by omega] at hrun

theorem StreamVByte.decodeValues_isRun {lengths : List UInt8} {n : Nat}
    (h : n ≤ 4 * lengths.length) : Answers (StreamVByte.decodeValues lengths n) (IsRun n) := by
  induction lengths generalizing n with
  | nil =>
      obtain rfl : n = 0 := Nat.le_zero.mp h
      exact .pure .nil
  | cons byte lengths ih =>
      rw [List.length_cons] at h
      refine (valuesOfLengths_isRun _ _ _).bind fun group hgroup =>
        (ih (show n - 4 ≤ 4 * lengths.length by omega)).bind fun values hvalues => .pure ?_
      have hrun := hgroup.append hvalues
      rwa [show min n 4 + (n - 4) = n by omega] at hrun

theorem StreamVByte.decode_isRun (n : Nat) : Answers (StreamVByte.decode n) (IsRun n) :=
  (nextBytes_length _ _).bind fun lengths hlengths => StreamVByte.decodeValues_isRun (by omega)

namespace GroupUnary

/-- A group has no more values than were asked for, each of 32 bits, and one at least if a
value ends in its bytes. -/
theorem valuesOfMarks_isRun {data : List UInt8} :
    ∀ {n marks : Nat} {value : List UInt8} {values : List Nat},
      valuesOfMarks n marks value data = .ok values →
        IsRun values.length values ∧ values.length ≤ n ∧
          (0 < n → 0 < marks → marks < 2 ^ data.length → 0 < values.length) := by
  induction data with
  | nil =>
      intro n marks value values h
      obtain rfl := Except.ok.inj h
      refine ⟨.nil, Nat.zero_le n, fun _ hmarks hlt => ?_⟩
      rw [List.length_nil, Nat.pow_zero] at hlt
      omega
  | cons byte data ih =>
      intro n marks value values h
      rw [valuesOfMarks] at h
      by_cases hn : n = 0
      · rw [if_pos hn] at h
        obtain rfl := Except.ok.inj h
        exact ⟨.nil, Nat.zero_le n, fun hpos => absurd hn (Nat.ne_of_gt hpos)⟩
      rw [if_neg hn] at h
      by_cases hopen : marks % 2 = 0
      · rw [if_pos hopen] at h
        obtain ⟨hrun, hle, hpos⟩ := ih h
        refine ⟨hrun, hle, fun hn hmarks hlt => hpos hn (by omega) ?_⟩
        rw [List.length_cons, Nat.pow_succ] at hlt
        omega
      rw [if_neg hopen] at h
      by_cases hlong : 4 < value.length + 1
      · rw [if_pos hlong] at h
        cases h
      rw [if_neg hlong] at h
      obtain ⟨rest, hrest, h⟩ := exists_of_bind_eq_ok h
      obtain rfl := Except.ok.inj h
      obtain ⟨hrun, hle, -⟩ := ih hrest
      have hvalue : ofLeBytes (value ++ [byte]) < 2 ^ 32 := by
        refine ofLeBytes_lt_of_length_le_four ?_
        rw [List.length_append, List.length_singleton]
        omega
      rw [List.length_cons]
      exact ⟨hrun.cons hvalue, by omega, fun _ _ _ => Nat.succ_pos _⟩

theorem decodeGroups_isRun {left n : Nat} (h : n ≤ left) :
    Answers (decodeGroups left n) (IsRun n) := by
  induction left generalizing n with
  | zero =>
      obtain rfl : n = 0 := Nat.le_zero.mp h
      exact .pure .nil
  | succ left ih =>
      rw [decodeGroups]
      by_cases hn : n = 0
      · subst hn
        exact .pure .nil
      rw [if_neg hn]
      refine (nextBytes_length _ _).bind fun bytes hbytes => ?_
      simp only
      by_cases hmarks : (bytes.headD 0).toNat = 0
      · rw [if_pos hmarks]
        exact .throw_bind _ _
      rw [if_neg hmarks]
      have hgroup : Answers (liftM (valuesOfMarks n (bytes.headD 0).toNat [] bytes.tail) :
          Decoding (List Nat)) fun group =>
            IsRun group.length group ∧ 0 < group.length ∧ group.length ≤ n := by
        refine .lift fun group hgroup => ?_
        obtain ⟨hrun, hle, hpos⟩ := valuesOfMarks_isRun hgroup
        refine ⟨hrun, hpos (Nat.pos_of_ne_zero hn) (Nat.pos_of_ne_zero hmarks) ?_, hle⟩
        rw [List.length_tail, hbytes]
        exact (bytes.headD 0).toNat_lt
      refine hgroup.bind fun group hfound => ?_
      obtain ⟨hrun, hpos, hle⟩ := hfound
      refine (ih (n := n - group.length) (by omega)).bind fun values hvalues => .pure ?_
      have hall := hrun.append hvalues
      rwa [Nat.add_sub_cancel' hle] at hall

end GroupUnary

/-! ## Interpolative code -/

theorem nextBits_lt (len : Nat) : Answers (nextBits len) (· < 2 ^ len) := by
  refine ⟨fun {input a after} hrun => ?_⟩
  rw [runFrom_nextBits] at hrun
  split at hrun
  · rename_i filled _
    obtain rfl := Except.ok.inj (congrArg Prod.fst hrun)
    refine Nat.lt_of_lt_of_le (ofLowFirst_lt _) (Nat.pow_le_pow_right (by decide) ?_)
    rw [List.length_take]
    exact Nat.min_le_left _ _
  · cases hrun

/-- A symbol that is read is one of the symbols. -/
theorem nextTruncatedBinary_lt {range : Nat} (h : 0 < range) :
    Answers (nextTruncatedBinary range) (· < range) := by
  rw [nextTruncatedBinary]
  by_cases hone : range ≤ 1
  · rw [if_pos hone]
    exact .pure h
  rw [if_neg hone]
  have hpow := two_pow_ceilLog2_eq (show 1 < range by omega)
  have hle := le_two_pow_ceilLog2 range
  have hlt := two_pow_ceilLog2_lt (show 1 < range by omega)
  refine (nextBits_lt _).bind fun y hy => ?_
  split
  · exact .pure (Nat.lt_trans hy hlt)
  · refine (nextBits_lt 1).bind fun bit hbit => .pure ?_
    omega

namespace Interpolative

/-- Sums that go from a lower bound to an upper one and never down. -/
def Climb (low high : Nat) : List Nat → Prop
  | [] => low ≤ high
  | s :: sums => low ≤ s ∧ Climb s high sums

theorem Climb.append {middle high : Nat} {left right : List Nat} :
    ∀ {low : Nat}, Climb low middle left → Climb middle high right →
      Climb low high (left ++ right) := by
  induction left with
  | nil =>
      intro low hleft hright
      cases right with
      | nil => exact Nat.le_trans hleft hright
      | cons s right => exact ⟨Nat.le_trans hleft hright.1, hright.2⟩
  | cons s left ih => exact fun hleft hright => ⟨hleft.1, ih hleft.2 hright⟩

theorem Climb.replicate (n low : Nat) : Climb low low (List.replicate n low) := by
  induction n with
  | zero => exact Nat.le_refl low
  | succ n ih => exact ⟨Nat.le_refl low, ih⟩

/-- Whatever the bits are, the sums are as many as were asked for and between the bounds. -/
theorem unbisect_climb {n low high : Nat} (h : low ≤ high) :
    Answers (unbisect n low high) fun sums => sums.length = n ∧ Climb low high sums := by
  induction n using Nat.strongRecOn generalizing low high with
  | _ n ih =>
      rw [unbisect]
      split
      · rename_i hn
        exact .pure ⟨hn.symm, h⟩
      · split
        · rename_i heq
          subst heq
          exact .pure ⟨List.length_replicate, .replicate n low⟩
        · refine (nextTruncatedBinary_lt (Nat.succ_pos _)).bind fun x hx =>
            (ih _ (by omega) (Nat.le_add_right low x)).bind fun left hleft =>
              (ih _ (by omega) (show low + x ≤ high by omega)).bind fun right hright =>
                .pure ⟨?_, hleft.2.append ⟨Nat.le_refl _, hright.2⟩⟩
          rw [List.length_append, List.length_cons, hleft.1, hright.1]
          omega

theorem length_differences (sum : Nat) (sums : List Nat) :
    (differences sum sums).length = sums.length := by
  induction sums generalizing sum with
  | nil => rfl
  | cons s sums ih => exact congrArg (· + 1) (ih s)

/-- Differences of sums that do not go down add up to the last of them. -/
theorem sum_differences {high : Nat} {sums : List Nat} :
    ∀ {low : Nat}, Climb low high sums → low + (differences low (sums ++ [high])).sum = high := by
  induction sums with
  | nil =>
      intro low h
      simp only [List.nil_append, differences, List.sum_cons, List.sum_nil]
      exact Nat.add_sub_cancel' h
  | cons s sums ih =>
      intro low h
      rw [List.cons_append, differences, List.sum_cons, ← Nat.add_assoc,
        Nat.add_sub_cancel' h.1]
      exact ih h.2

theorem totalOf_lt {hint : Option Nat} (h : ∀ total, hint = some total → total < 2 ^ 32) :
    Answers (totalOf hint) (· < 2 ^ 32) := by
  cases hint with
  | none => exact Base128.terminated.decodeOne_lt
  | some total => exact .pure (h total rfl)

/-- **The values of a run add up to its sum**, the known one or the one that was stored. -/
theorem sum_of_decode {bytes : List UInt8} {n : Nat} {hint : Option Nat} {values : List Nat}
    {consumed : Nat} (hn : n ≠ 0) (h : decode bytes n hint = .ok (values, consumed)) :
    values.length = n ∧
      ∃ input, Attempt.runFrom (totalOf hint) (.start bytes) = (.ok values.sum, input) := by
  obtain ⟨total, input, sums, bits, htotal, hsums, rfl, -⟩ := of_decode_eq_ok hn h
  obtain ⟨hlength, hclimb⟩ := (unbisect_climb (Nat.zero_le total)).run hsums
  refine ⟨?_, input, ?_⟩
  · rw [length_differences, List.length_append, hlength]
    exact Nat.sub_add_cancel (Nat.pos_of_ne_zero hn)
  · have hsum := sum_differences hclimb
    rw [Nat.zero_add] at hsum
    rw [hsum, htotal]

theorem isRun_of_decode {bytes : List UInt8} {n : Nat} {hint : Option Nat} {values : List Nat}
    {consumed : Nat} (hhint : ∀ total, hint = some total → total < 2 ^ 32)
    (h : decode bytes n hint = .ok (values, consumed)) : IsRun n values := by
  by_cases hn : n = 0
  · subst hn
    obtain ⟨rfl, -⟩ := Prod.mk.inj (Except.ok.inj h)
    exact .nil
  obtain ⟨hlength, input, htotal⟩ := sum_of_decode hn h
  exact ⟨hlength, fun v hv =>
    Nat.lt_of_le_of_lt (List.le_sum_of_mem hv) ((totalOf_lt hhint).run htotal)⟩

end Interpolative

/-! ## Blocks -/

namespace Codec

theorem isRun_of_decodeFrom {decoding : Decoding (List Nat)} {n : Nat}
    (hrun : Answers decoding (IsRun n)) {bytes : List UInt8} {values : List Nat}
    {consumed : Nat} (h : decodeFrom decoding bytes = .ok (values, consumed)) :
    IsRun n values := by
  obtain ⟨after, hdecoding⟩ := of_decodeFrom_eq_ok h
  exact hrun.run hdecoding

/-- **A block that is decoded is a run of the length that was asked for.** -/
theorem isRun_of_decode {codec : Codec} {bytes : List UInt8} {n : Nat} {hint : Option Nat}
    {values : List Nat} {consumed : Nat} (hhint : ∀ total, hint = some total → total < 2 ^ 32)
    (h : codec.decode bytes n hint = .ok (values, consumed)) : IsRun n values := by
  rw [decode] at h
  by_cases hn : n = 0
  · rw [if_pos hn] at h
    subst hn
    obtain ⟨rfl, -⟩ := Prod.mk.inj (Except.ok.inj h)
    exact .nil
  rw [if_neg hn] at h
  by_cases hcharge : codec.usesInterpolative n = true
  · rw [if_pos hcharge] at h
    exact Interpolative.isRun_of_decode hhint h
  rw [if_neg hcharge] at h
  cases codec with
  | vbyte => exact isRun_of_decodeFrom (decodeTimes_isRun Base128.continued.decodeOne_lt n) h
  | groupVarint => exact isRun_of_decodeFrom (GroupVarint.decode_isRun n) h
  | groupUnary => exact isRun_of_decodeFrom (GroupUnary.decodeGroups_isRun (Nat.le_refl n)) h
  | streamVByte => exact isRun_of_decodeFrom (StreamVByte.decode_isRun n) h
  | interpolative =>
      have hrun : Interpolative.decode bytes n none = .ok (values, consumed) := h
      exact Interpolative.isRun_of_decode (fun _ hnone => by cases hnone) hrun

end Codec
end Postings
