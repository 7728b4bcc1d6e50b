import Postings.Proofs.Codec.Exact
import Postings.Proofs.Codec.Interpolative

/-!
# Truncated binary is a prefix code

The code word of a symbol stands at the front of no other, and every list of bits that is long
enough begins with one.  So behind any bits a reader finds the one symbol whose code word
stands there, or the bytes end before it does; and then the byte is missed that would come
after the last.

A code word is one field of bits, or one field and a bit; which of the two it is, the first
field tells.
-/

namespace Postings

/-! ## Code words -/

/-- A first field that is small enough is a code word. -/
theorem truncatedBinary_of_lt {y range : Nat} (hone : 1 < range)
    (h : y < 2 ^ ceilLog2 range - range) :
    y < range ∧ truncatedBinary y range = lowFirst (ceilLog2 range - 1) y := by
  have hwidth := two_pow_ceilLog2_eq hone
  have hlt := two_pow_ceilLog2_lt hone
  refine ⟨by omega, ?_⟩
  rw [truncatedBinary, if_neg (by omega)]
  exact if_pos h

/-- Any other first field is one with either bit behind it. -/
theorem truncatedBinary_of_le {y range : Nat} (hone : 1 < range)
    (hy : y < 2 ^ (ceilLog2 range - 1)) (h : 2 ^ ceilLog2 range - range ≤ y) (bit : Bool) :
    let x := 2 ^ ceilLog2 range - range + (2 * (y - (2 ^ ceilLog2 range - range)) + bit.toNat)
    x < range ∧ truncatedBinary x range = lowFirst (ceilLog2 range - 1) y ++ [bit] := by
  intro x
  have hwidth := two_pow_ceilLog2_eq hone
  have hle := le_two_pow_ceilLog2 range
  have hbit := bit.toNat_lt
  have hx : x < range := by omega
  have hover : x - (2 ^ ceilLog2 range - range) =
      2 * (y - (2 ^ ceilLog2 range - range)) + bit.toNat := Nat.add_sub_cancel_left _ _
  have hlast : lowFirst 1 bit.toNat = [bit] := lowFirst_ofLowFirst [bit]
  obtain ⟨hshort, -⟩ | ⟨-, -, hword⟩ := truncatedBinary_eq hone hx
  · omega
  · rw [hover] at hword
    refine ⟨hx, hword.trans ?_⟩
    rw [Nat.mul_add_mod, Nat.mod_eq_of_lt hbit, hlast, Nat.mul_add_div (by decide),
      Nat.div_eq_of_lt hbit, Nat.add_zero, Nat.add_sub_cancel' h]

/-- Enough bits begin with a code word. -/
theorem exists_truncatedBinary_prefix {range : Nat} (h : 0 < range) {bits : List Bool}
    (hbits : ceilLog2 range ≤ bits.length) : ∃ x < range, truncatedBinary x range <+: bits := by
  by_cases hone : range ≤ 1
  · refine ⟨0, h, ?_⟩
    rw [truncatedBinary, if_pos hone]
    exact List.nil_prefix
  have hlong : 1 < range := Nat.not_le.mp hone
  have hpos := ceilLog2_pos hlong
  -- The first field, the bit behind it, and what follows.
  obtain ⟨first, bit, rest, rfl, hfirst⟩ : ∃ first bit rest,
      bits = first ++ [bit] ++ rest ∧ first.length = ceilLog2 range - 1 := by
    refine ⟨bits.take (ceilLog2 range - 1), bits[ceilLog2 range - 1],
      bits.drop (ceilLog2 range - 1 + 1), ?_, ?_⟩
    · rw [List.append_assoc, List.singleton_append, List.getElem_cons_drop,
        List.take_append_drop]
    · rw [List.length_take]
      omega
  have hfield := ofLowFirst_lt first
  have hspell := lowFirst_ofLowFirst first
  rw [hfirst] at hfield hspell
  by_cases hshort : ofLowFirst first < 2 ^ ceilLog2 range - range
  · obtain ⟨hx, hword⟩ := truncatedBinary_of_lt hlong hshort
    refine ⟨_, hx, ?_⟩
    rw [hword, hspell, List.append_assoc]
    exact List.prefix_append _ _
  · obtain ⟨hx, hword⟩ := truncatedBinary_of_le hlong hfield (Nat.not_lt.mp hshort) bit
    refine ⟨_, hx, ?_⟩
    rw [hword, hspell]
    exact List.prefix_append _ _

/-! ## Reading one symbol -/

/-- With too few bits left all bytes are taken in vain. -/
theorem BitInput.refill_of_short {len : Nat} {rest : List UInt8} :
    ∀ {pending : List Bool} {taken : Nat}, pending.length + 8 * rest.length < len →
      refill len pending taken rest = .error (.regionTooShort "interpolative"
        ((taken + rest.length + 1) * 8) ((taken + rest.length) * 8)) := by
  induction rest with
  | nil =>
      intro pending taken h
      exact if_neg (Nat.not_le.mpr h)
  | cons byte rest ih =>
      intro pending taken h
      rw [List.length_cons] at h
      have hshort : (pending ++ lowFirst 8 byte.toNat).length + 8 * rest.length < len := by
        rw [List.length_append, length_lowFirst]
        omega
      rw [refill, if_neg (by omega), ih hshort, List.length_cons, Nat.add_right_comm taken 1,
        Nat.add_assoc taken]

theorem runFrom_nextBits_of_short {len b : Nat} {bytes : List UInt8} (hb : b ≤ 8 * bytes.length)
    (h : 8 * bytes.length < b + len) :
    Attempt.runFrom (nextBits len) (.after bytes b) =
      (.error (.regionTooShort "interpolative" ((bytes.length + 1) * 8) (bytes.length * 8)),
        .after bytes b) := by
  have hpending : (BitInput.after bytes b).pending.length = 8 * ((b + 7) / 8) - b := by
    simp only [BitInput.after, List.length_drop, List.length_take, length_bitsOf]
    omega
  have hrest : (BitInput.after bytes b).rest.length = bytes.length - (b + 7) / 8 :=
    List.length_drop
  have htaken : (BitInput.after bytes b).taken + (BitInput.after bytes b).rest.length =
      bytes.length := by
    rw [hrest]
    exact Nat.add_sub_cancel' (show (b + 7) / 8 ≤ bytes.length by omega)
  rw [runFrom_nextBits, BitInput.refill_of_short (by omega), htaken]

/-- Where no code word stands, the bytes end. -/
theorem runFrom_nextTruncatedBinary_of_short {range b : Nat} {bytes : List UInt8} (h : 0 < range)
    (hb : b ≤ 8 * bytes.length)
    (hnone : ∀ x < range, ¬ truncatedBinary x range <+: (bitsOf bytes).drop b) :
    ∃ left, Attempt.runFrom (nextTruncatedBinary range) (.after bytes b) =
      (.error (.regionTooShort "interpolative" ((bytes.length + 1) * 8) (bytes.length * 8)),
        left) := by
  have hlength : ((bitsOf bytes).drop b).length = 8 * bytes.length - b := by
    rw [List.length_drop, length_bitsOf]
  have hshort : ((bitsOf bytes).drop b).length < ceilLog2 range := by
    refine Nat.not_le.mp fun henough => ?_
    obtain ⟨x, hx, hword⟩ := exists_truncatedBinary_prefix h henough
    exact hnone x hx hword
  have hone : ¬ range ≤ 1 := fun hone => by
    rw [ceilLog2, if_pos hone] at hshort
    exact Nat.not_lt_zero _ hshort
  rw [nextTruncatedBinary, if_neg hone]
  simp only
  rw [Attempt.runFrom_bind]
  by_cases hfirst : 8 * bytes.length < b + (ceilLog2 range - 1)
  · exact ⟨_, by rw [runFrom_nextBits_of_short hb hfirst]⟩
  -- All bits are left of the first field, and they are no code word.
  have hall : ((bitsOf bytes).drop b).length = ceilLog2 range - 1 := by omega
  have hrun := consumes_nextBits ((bitsOf bytes).drop b) bytes b hb (List.prefix_refl _)
  rw [hall] at hrun
  rw [hrun]
  simp only
  by_cases hword : ofLowFirst ((bitsOf bytes).drop b) < 2 ^ ceilLog2 range - range
  · obtain ⟨hx, heq⟩ := truncatedBinary_of_lt (Nat.not_le.mp hone) hword
    have hspell := lowFirst_ofLowFirst ((bitsOf bytes).drop b)
    rw [hall] at hspell
    rw [hspell] at heq
    exact absurd ⟨[], by rw [heq, List.append_nil]⟩ (hnone _ hx)
  · rw [if_neg hword, Attempt.runFrom_bind,
      runFrom_nextBits_of_short (by omega) (by omega)]
    exact ⟨_, rfl⟩

/-- Behind any bits, either the one symbol is read whose code word stands there, or a byte is
missing and no code word stands there. -/
theorem runFrom_nextTruncatedBinary {range b : Nat} {bytes : List UInt8} (h : 0 < range)
    (hb : b ≤ 8 * bytes.length) :
    (∃ x < range, truncatedBinary x range <+: (bitsOf bytes).drop b ∧
      Attempt.runFrom (nextTruncatedBinary range) (.after bytes b) =
        (.ok x, .after bytes (b + (truncatedBinary x range).length))) ∨
    ((∀ x < range, ¬ truncatedBinary x range <+: (bitsOf bytes).drop b) ∧
      ∃ left, Attempt.runFrom (nextTruncatedBinary range) (.after bytes b) =
        (.error (.regionTooShort "interpolative" ((bytes.length + 1) * 8) (bytes.length * 8)),
          left)) := by
  by_cases hsome : ∃ x < range, truncatedBinary x range <+: (bitsOf bytes).drop b
  · obtain ⟨x, hx, hword⟩ := hsome
    exact .inl ⟨x, hx, hword, consumes_nextTruncatedBinary hx bytes b hb hword⟩
  · have hnone : ∀ x < range, ¬ truncatedBinary x range <+: (bitsOf bytes).drop b :=
      fun x hx hword => hsome ⟨x, hx, hword⟩
    exact .inr ⟨hnone, runFrom_nextTruncatedBinary_of_short h hb hnone⟩

/-- No code word stands at the front of another. -/
theorem eq_of_truncatedBinary_prefix {x y range : Nat} (hx : x < range) (hy : y < range)
    (h : truncatedBinary x range <+: truncatedBinary y range) : x = y := by
  have hpacked := prefix_bitsOf_packBits (truncatedBinary y range)
  have hreadx := consumes_nextTruncatedBinary hx _ 0 (Nat.zero_le _) (h.trans hpacked)
  have hready := consumes_nextTruncatedBinary hy _ 0 (Nat.zero_le _) hpacked
  exact Except.ok.inj (congrArg Prod.fst (hreadx.symm.trans hready))

/-! ## Reading symbols one after another -/

/-- The bits of symbols, each with its range. -/
def symbolBits (symbols : List (Nat × Nat)) : List Bool :=
  symbols.flatMap fun s => truncatedBinary s.1 s.2

theorem consumes_symbols {symbols : List (Nat × Nat)} (h : ∀ s ∈ symbols, s.1 < s.2) :
    Consumes ((symbols.map Prod.snd).mapM nextTruncatedBinary) (symbolBits symbols)
      (symbols.map Prod.fst) := by
  induction symbols with
  | nil => exact .pure []
  | cons s symbols ih =>
      obtain ⟨hs, hsymbols⟩ := List.forall_mem_cons.mp h
      rw [List.map_cons, List.mapM_cons]
      exact (consumes_nextTruncatedBinary hs).bind
        ((ih hsymbols).bind_pure fun others => s.1 :: others)

end Postings
