import Postings.Codec.Block

/-!
# Decoders take exactly their bytes

What a decoder answers with is told by the bytes that it takes.  Wherever these bytes
stand and whatever follows them, it takes them and answers the same; and where they are
cut short, the missing byte is missed.  So an input that ends too early is refused, never
decoded to something else, and a block is decoded from the front of some bytes exactly as
it is from all of them.

A reader of bytes and a reader of bits differ in what they hold over from the bytes that
were taken: nothing, or the bits that are left of the last one.  The property is stated for
both at once, and it is kept by attempts in sequence.
-/

namespace Postings

/-- An input ended before a byte that was needed. -/
def Error.IsTooShort (e : Error) : Prop :=
  ∃ region required available, e = .regionTooShort region required available ∧
    available < required

/-- What is cut off two lists in a row is cut off the first or the second. -/
theorem cut_of_append {α : Type} {front s t : List α} (h : front <+: s ++ t)
    (hne : front ≠ s ++ t) :
    (front <+: s ∧ front ≠ s) ∨ ∃ cut, front = s ++ cut ∧ cut <+: t ∧ cut ≠ t := by
  have hwhole : s <+: front → ∃ cut, front = s ++ cut ∧ cut <+: t ∧ cut ≠ t := by
    rintro ⟨cut, rfl⟩
    exact ⟨cut, rfl, (List.prefix_append_right_inj s).mp h, fun heq => hne (by rw [heq])⟩
  rcases List.prefix_or_prefix_of_prefix h (List.prefix_append s t) with hcut | hs
  · by_cases heq : front = s
    · exact .inr (hwhole (heq ▸ List.prefix_refl s))
    · exact .inl ⟨hcut, heq⟩
  · exact .inr (hwhole hs)

namespace Attempt

section

variable {μ σ α β : Type} (state : μ → Nat → List UInt8 → σ)

/-- Holding `before` over, the attempt takes exactly the bytes `used`, answers with `a` and
holds `after` over.  A state is what is held over, the number of bytes taken, and the rest. -/
structure Spans (x : Attempt σ α) (before : μ) (used : List UInt8) (a : α) (after : μ) :
    Prop where
  /-- The bytes are taken wherever they stand, and nothing behind them is looked at. -/
  takes : ∀ taken more, x.runFrom (state before taken (used ++ more)) =
    (.ok a, state after (taken + used.length) more)
  /-- Each of the bytes is needed. -/
  misses : ∀ taken front, front <+: used → front ≠ used →
    ∃ e s, x.runFrom (state before taken front) = (.error e, s) ∧ e.IsTooShort

/-- Where the attempt succeeds, it has taken exactly some bytes from the front. -/
structure Exact (x : Attempt σ α) : Prop where
  spans : ∀ before {taken rest a s}, x.runFrom (state before taken rest) = (.ok a, s) →
    ∃ used more after, rest = used ++ more ∧ Spans state x before used a after

variable {state}

namespace Spans

variable {x : Attempt σ α} {before after : μ} {used : List UInt8} {a : α}

/-- The state that is left is the one after the bytes. -/
theorem eq_of_run (h : Spans state x before used a after) {taken : Nat} {more : List UInt8}
    {answer : Except Error α} {s : σ}
    (hrun : x.runFrom (state before taken (used ++ more)) = (answer, s)) :
    s = state after (taken + used.length) more :=
  (Prod.mk.inj (hrun.symm.trans (h.takes taken more))).2

theorem pure (held : μ) (a : α) : Spans state (Pure.pure a) held [] a held :=
  ⟨fun _ _ => rfl, fun _ _ hfront hne => absurd (List.prefix_nil.mp hfront) hne⟩

/-- Bytes taken one after the other.  Where they are cut, the second ones are cut or the
first. -/
theorem bind {f : α → Attempt σ β} {second : List UInt8} {b : β} {last : μ}
    (hx : Spans state x before used a after) (hf : Spans state (f a) after second b last) :
    Spans state (x >>= f) before (used ++ second) b last := by
  refine ⟨fun taken more => ?_, fun taken front hfront hne => ?_⟩
  · rw [runFrom_bind, List.append_assoc, hx.takes]
    simp only
    rw [hf.takes, List.length_append, Nat.add_assoc]
  · obtain ⟨hcut, hshort⟩ | ⟨cut, rfl, hcut, hshort⟩ := cut_of_append hfront hne
    · obtain ⟨e, s, hrun, he⟩ := hx.misses taken front hcut hshort
      exact ⟨e, s, by rw [runFrom_bind, hrun], he⟩
    · obtain ⟨e, s, hrun, he⟩ := hf.misses (taken + used.length) cut hcut hshort
      exact ⟨e, s, by rw [runFrom_bind, hx.takes]; exact hrun, he⟩

end Spans

namespace Exact

theorem pure (a : α) : Exact state (Pure.pure a : Attempt σ α) := by
  refine ⟨fun before {_ rest b _} hrun => ⟨[], rest, before, rfl, ?_⟩⟩
  obtain rfl := Except.ok.inj (Prod.mk.inj hrun).1
  exact .pure before _

theorem throw (e : Error) : Exact state (MonadExcept.throw e : Attempt σ α) :=
  ⟨fun _ _ _ _ _ hrun => by cases hrun⟩

/-- A check does not look at the input. -/
theorem lift (x : Except Error α) : Exact state (liftM x : Attempt σ α) := by
  cases x with
  | error e => exact .throw e
  | ok a => exact .pure a

/-- Attempts in sequence take their bytes in sequence. -/
theorem bind {x : Attempt σ α} {f : α → Attempt σ β} (hx : Exact state x)
    (hf : ∀ a, Exact state (f a)) : Exact state (x >>= f) := by
  refine ⟨fun before {_ _ b _} hrun => ?_⟩
  obtain ⟨a, u, hfirst, hsecond⟩ := of_runFrom_bind hrun
  obtain ⟨used, rest, between, rfl, hspan⟩ := hx.spans before hfirst
  obtain rfl := hspan.eq_of_run hfirst
  obtain ⟨second, more, after, rfl, hspan'⟩ := (hf a).spans between hsecond
  exact ⟨used ++ second, more, after, (List.append_assoc _ _ _).symm, hspan.bind hspan'⟩

end Exact
end
end Attempt

open Attempt (Exact)

/-! ## Bytes -/

/-- A decoding holds nothing over from the bytes that it has taken. -/
abbrev ByteInput.holding (_ : Unit) (taken : Nat) (rest : List UInt8) : ByteInput :=
  ⟨taken, rest⟩

/-- A decoding that takes exactly its bytes. -/
abbrev Decoding.Exact {α : Type} (decoding : Decoding α) : Prop :=
  Attempt.Exact ByteInput.holding decoding

theorem ByteInput.tooShort_isTooShort {input : ByteInput} {codec : String} {count : Nat}
    (h : input.rest.length < count) : (input.tooShort codec count).IsTooShort :=
  ⟨codec, _, _, rfl, Nat.mul_lt_mul_of_pos_right (Nat.add_lt_add_left h _) (by decide)⟩

theorem nextByte_exact (codec : String) : Decoding.Exact (nextByte codec) := by
  refine ⟨fun _ {taken rest a s} hrun => ?_⟩
  cases rest with
  | nil => cases hrun
  | cons byte rest =>
      obtain rfl := Except.ok.inj (Prod.mk.inj hrun).1
      refine ⟨[byte], rest, (), rfl, fun _ _ => rfl, fun taken front hfront hne => ?_⟩
      rcases List.prefix_cons_iff.mp hfront with rfl | ⟨front, rfl, hnil⟩
      · exact ⟨_, _, rfl, ByteInput.tooShort_isTooShort (Nat.zero_lt_one)⟩
      · exact absurd (congrArg (byte :: ·) (List.prefix_nil.mp hnil)) hne

theorem runFrom_nextBytes (codec : String) (count : Nat) (input : ByteInput) :
    Attempt.runFrom (nextBytes codec count) input =
      if input.rest.length < count then (.error (input.tooShort codec count), input)
      else (.ok (input.rest.take count), ⟨input.taken + count, input.rest.drop count⟩) := by
  have hlen : (input.rest.take count).length < count ↔ input.rest.length < count := by
    rw [List.length_take]
    omega
  rw [nextBytes, Attempt.runFrom_bind, Attempt.runFrom_get]
  simp only [hlen]
  split <;> rfl

theorem nextBytes_exact (codec : String) (count : Nat) :
    Decoding.Exact (nextBytes codec count) := by
  refine ⟨fun _ {taken rest a s} hrun => ?_⟩
  rw [runFrom_nextBytes] at hrun
  by_cases hshort : rest.length < count
  · rw [if_pos hshort] at hrun
    cases hrun
  · rw [if_neg hshort] at hrun
    obtain ⟨⟨⟩, -⟩ := Prod.mk.inj hrun
    have hlength : (rest.take count).length = count := by
      rw [List.length_take]
      omega
    refine ⟨rest.take count, rest.drop count, (), (List.take_append_drop _ _).symm,
      fun taken more => ?_, fun taken front hfront hne => ?_⟩
    · rw [runFrom_nextBytes, if_neg (by rw [List.length_append]; omega),
        List.take_left' hlength, List.drop_left' hlength, hlength]
    · have hcut : front.length < count :=
        hlength ▸ Nat.lt_of_le_of_ne hfront.length_le fun heq => hne (hfront.eq_of_length heq)
      rw [runFrom_nextBytes, if_pos hcut]
      exact ⟨_, _, rfl, ByteInput.tooShort_isTooShort hcut⟩

theorem decodeTimes_exact {one : Decoding Nat} (h : Decoding.Exact one) (n : Nat) :
    Decoding.Exact (decodeTimes one n) := by
  induction n with
  | zero => exact .pure []
  | succ n ih => exact h.bind fun value => ih.bind fun values => .pure (value :: values)

/-! ## Seven bits a byte -/

namespace Base128

variable (form : Base128)

theorem digits_exact (left : Nat) : Decoding.Exact (form.digits left) := by
  induction left with
  | zero => exact .throw _
  | succ left ih =>
      rw [digits]
      refine (nextByte_exact _).bind fun byte => ?_
      simp only
      split
      · exact .pure _
      · exact ih.bind fun digits => .pure _

theorem decodeOne_exact : Decoding.Exact form.decodeOne := by
  rw [decodeOne]
  refine (form.digits_exact 5).bind fun value => ?_
  split
  · exact (Exact.throw _).bind fun _ => .pure value
  · exact .pure value

end Base128

/-! ## Values of one to four bytes -/

theorem valuesOfLengths_exact (codec : String) (lengths n : Nat) :
    Decoding.Exact (valuesOfLengths codec lengths n) := by
  induction n generalizing lengths with
  | zero => exact .pure []
  | succ n ih =>
      exact (nextBytes_exact _ _).bind fun bytes => (ih _).bind fun values => .pure _

theorem GroupVarint.decode_exact (n : Nat) : Decoding.Exact (GroupVarint.decode n) := by
  fun_induction GroupVarint.decode n with
  | case1 => exact .pure []
  | case2 n hn ih =>
      exact (nextByte_exact _).bind fun lengths =>
        (valuesOfLengths_exact _ _ _).bind fun group => ih.bind fun values => .pure _

theorem StreamVByte.decodeValues_exact (lengths : List UInt8) (n : Nat) :
    Decoding.Exact (StreamVByte.decodeValues lengths n) := by
  induction lengths generalizing n with
  | nil => exact .pure []
  | cons byte lengths ih =>
      exact (valuesOfLengths_exact _ _ _).bind fun group => (ih _).bind fun values => .pure _

theorem StreamVByte.decode_exact (n : Nat) : Decoding.Exact (StreamVByte.decode n) :=
  (nextBytes_exact _ _).bind fun lengths => StreamVByte.decodeValues_exact lengths n

theorem GroupUnary.decodeGroups_exact (left n : Nat) :
    Decoding.Exact (GroupUnary.decodeGroups left n) := by
  induction left generalizing n with
  | zero => exact .pure []
  | succ left ih =>
      rw [GroupUnary.decodeGroups]
      split
      · exact .pure []
      · refine (nextBytes_exact _ _).bind fun bytes => ?_
        have hgroup : Decoding.Exact (do
            let group ← GroupUnary.valuesOfMarks n (bytes.headD 0).toNat [] bytes.tail
            return group ++ (← GroupUnary.decodeGroups left (n - group.length)) :
              Decoding (List Nat)) :=
          (Exact.lift _).bind fun group => (ih _).bind fun values => .pure _
        simp only
        split
        · exact (Exact.throw _).bind fun _ => hgroup
        · exact hgroup

/-! ## Bits -/

namespace BitInput

/-- An attempt on bits that takes exactly its bytes. -/
abbrev Exact {α : Type} (x : Attempt BitInput α) : Prop :=
  Attempt.Exact BitInput.mk x

/-- With enough bits pending no byte is taken. -/
theorem refill_of_le {len : Nat} {pending : List Bool} (h : len ≤ pending.length) (taken : Nat)
    (rest : List UInt8) : refill len pending taken rest = .ok ⟨pending, taken, rest⟩ := by
  cases rest <;> rw [refill, if_pos h]

/-- There are as many bits as were asked for. -/
theorem le_of_refill {len : Nat} {pending : List Bool} {taken : Nat} {rest : List UInt8}
    {filled : BitInput} (h : refill len pending taken rest = .ok filled) :
    len ≤ filled.pending.length := by
  fun_induction refill len pending taken rest with
  | case1 pending taken henough =>
      obtain rfl := Except.ok.inj h
      exact henough
  | case2 => cases h
  | case3 pending taken byte rest henough =>
      obtain rfl := Except.ok.inj h
      exact henough
  | case4 pending taken byte rest hshort ih => exact ih h

/-- Bytes are taken only until there are enough bits. -/
theorem refill_exact {len : Nat} {rest : List UInt8} :
    ∀ {pending : List Bool} {taken : Nat} {filled : BitInput},
      refill len pending taken rest = .ok filled →
        ∃ used more held, rest = used ++ more ∧
          (∀ taken more, refill len pending taken (used ++ more) =
            .ok ⟨held, taken + used.length, more⟩) ∧
          ∀ taken front, front <+: used → front ≠ used →
            ∃ e, refill len pending taken front = .error e ∧ e.IsTooShort := by
  induction rest with
  | nil =>
      intro pending taken filled h
      rw [refill] at h
      by_cases hlen : len ≤ pending.length
      · exact ⟨[], [], pending, rfl, refill_of_le hlen, fun _ _ hfront hne =>
          absurd (List.prefix_nil.mp hfront) hne⟩
      · rw [if_neg hlen] at h
        cases h
  | cons byte rest ih =>
      intro pending taken filled h
      by_cases hlen : len ≤ pending.length
      · exact ⟨[], byte :: rest, pending, rfl, refill_of_le hlen, fun _ _ hfront hne =>
          absurd (List.prefix_nil.mp hfront) hne⟩
      · rw [refill, if_neg hlen] at h
        obtain ⟨used, more, held, rfl, htakes, hmisses⟩ := ih h
        refine ⟨byte :: used, more, held, rfl, fun taken more => ?_,
          fun taken front hfront hne => ?_⟩
        · rw [List.cons_append, refill, if_neg hlen, htakes, List.length_cons, Nat.add_assoc,
            Nat.add_comm 1]
        · cases front with
          | nil =>
              refine ⟨_, by rw [refill, if_neg hlen], _, _, _, rfl, ?_⟩
              omega
          | cons first front =>
              obtain ⟨rfl, hcut⟩ := List.cons_prefix_cons.mp hfront
              rw [refill, if_neg hlen]
              exact hmisses _ front hcut fun heq => hne (by rw [heq])

end BitInput

open BitInput (refill)

theorem runFrom_nextBits (len : Nat) (input : BitInput) :
    Attempt.runFrom (nextBits len) input =
      match refill len input.pending input.taken input.rest with
      | .ok filled => (.ok (ofLowFirst (filled.pending.take len)),
          { filled with pending := filled.pending.drop len })
      | .error e => (.error e, input) := by
  rw [nextBits, Attempt.runFrom_bind, Attempt.runFrom_get]
  simp only
  rw [Attempt.runFrom_bind, Attempt.runFrom_lift]
  cases refill len input.pending input.taken input.rest <;> rfl

theorem nextBits_exact (len : Nat) : BitInput.Exact (nextBits len) := by
  refine ⟨fun pending {taken rest a s} hrun => ?_⟩
  rw [runFrom_nextBits] at hrun
  cases hfill : refill len pending taken rest with
  | error e =>
      simp only [hfill] at hrun
      cases hrun
  | ok filled =>
      obtain ⟨used, more, held, rfl, htakes, hmisses⟩ := BitInput.refill_exact hfill
      rw [htakes] at hrun
      obtain ⟨⟨⟩, -⟩ := Prod.mk.inj hrun
      refine ⟨used, more, held.drop len, rfl, fun taken more => ?_,
        fun taken front hfront hne => ?_⟩
      · rw [runFrom_nextBits, htakes]
      · obtain ⟨e, herror, he⟩ := hmisses taken front hfront hne
        exact ⟨e, _, by rw [runFrom_nextBits, herror], he⟩

theorem nextTruncatedBinary_exact (range : Nat) : BitInput.Exact (nextTruncatedBinary range) := by
  rw [nextTruncatedBinary]
  split
  · exact .pure 0
  · refine (nextBits_exact _).bind fun y => ?_
    split
    · exact .pure y
    · exact (nextBits_exact 1).bind fun b => .pure _

namespace Interpolative

theorem unbisect_exact (n low high : Nat) : BitInput.Exact (unbisect n low high) := by
  induction n using Nat.strongRecOn generalizing low high with
  | _ n ih =>
      rw [unbisect]
      split
      · exact .pure []
      · split
        · exact .pure _
        · exact (nextTruncatedBinary_exact _).bind fun middle =>
            (ih _ (by omega) _ _).bind fun left =>
              (ih _ (by omega) _ _).bind fun right => .pure _

/-! ## Blocks -/

/-- The sum of a run: known, or the first thing that is read. -/
def totalOf : Option Nat → Decoding Nat
  | some sum => pure sum
  | none => Base128.terminated.decodeOne

theorem totalOf_exact (hint : Option Nat) : Decoding.Exact (totalOf hint) := by
  cases hint with
  | none => exact Base128.terminated.decodeOne_exact
  | some sum => exact .pure sum

/-- The sum first, then the sums before it from the bytes that follow. -/
theorem decode_eq {n : Nat} (hn : n ≠ 0) (bytes : List UInt8) (hint : Option Nat) :
    decode bytes n hint =
      match Attempt.runFrom (totalOf hint) (.start bytes) with
      | (.ok sum, input) =>
          match Attempt.runFrom (unbisect (n - 1) 0 sum) (.start input.rest) with
          | (.ok sums, bits) =>
              .ok (differences 0 (sums ++ [sum]), input.taken + bits.taken)
          | (.error e, _) => .error e
      | (.error e, _) => .error e := by
  rw [decode]
  simp only [if_neg hn]
  cases hint with
  | some sum => rfl
  | none =>
      rw [totalOf]
      rcases Attempt.runFrom Base128.terminated.decodeOne (.start bytes) with ⟨_ | _, _⟩ <;> rfl

/-- What a run was decoded from: its sum and the sums before it. -/
theorem of_decode_eq_ok {n : Nat} (hn : n ≠ 0) {bytes : List UInt8} {hint : Option Nat}
    {values : List Nat} {consumed : Nat} (h : decode bytes n hint = .ok (values, consumed)) :
    ∃ sum input sums bits, Attempt.runFrom (totalOf hint) (.start bytes) = (.ok sum, input) ∧
      Attempt.runFrom (unbisect (n - 1) 0 sum) (.start input.rest) = (.ok sums, bits) ∧
      values = differences 0 (sums ++ [sum]) ∧ consumed = input.taken + bits.taken := by
  rw [decode_eq hn] at h
  rcases htotal : Attempt.runFrom (totalOf hint) (.start bytes) with ⟨_ | sum, input⟩
  · rw [htotal] at h
    cases h
  · simp only [htotal] at h
    rcases hsums : Attempt.runFrom (unbisect (n - 1) 0 sum) (.start input.rest) with
      ⟨_ | sums, bits⟩
    · rw [hsums] at h
      cases h
    · rw [hsums] at h
      obtain ⟨rfl, rfl⟩ := Prod.mk.inj (Except.ok.inj h)
      exact ⟨sum, input, sums, bits, rfl, hsums, rfl, rfl⟩

end Interpolative

namespace Codec

/-- A run is decoded exactly from the bytes `used`. -/
structure DecodesExactly (decode : List UInt8 → Except Error (List Nat × Nat))
    (used : List UInt8) (values : List Nat) : Prop where
  /-- Whatever follows the bytes, they are decoded and counted. -/
  takes : ∀ more, decode (used ++ more) = .ok (values, used.length)
  /-- Each of the bytes is needed. -/
  misses : ∀ front, front <+: used → front ≠ used → ∃ e, decode front = .error e ∧ e.IsTooShort

theorem DecodesExactly.nothing {decode : List UInt8 → Except Error (List Nat × Nat)}
    (h : ∀ bytes, decode bytes = .ok ([], 0)) : DecodesExactly decode [] [] :=
  ⟨h, fun _ hfront hne => absurd (List.prefix_nil.mp hfront) hne⟩

theorem of_decodeFrom_eq_ok {decoding : Decoding (List Nat)} {bytes : List UInt8}
    {values : List Nat} {consumed : Nat} (h : decodeFrom decoding bytes = .ok (values, consumed)) :
    ∃ after, Attempt.runFrom decoding (.start bytes) = (.ok values, after) := by
  rw [decodeFrom] at h
  rcases hrun : Attempt.runFrom decoding (.start bytes) with ⟨_ | answer, after⟩
  · rw [hrun] at h
    cases h
  · rw [hrun] at h
    obtain ⟨rfl, -⟩ := Prod.mk.inj (Except.ok.inj h)
    exact ⟨after, rfl⟩

theorem decodeFrom_exactly {decoding : Decoding (List Nat)} (hexact : Decoding.Exact decoding)
    {bytes : List UInt8} {values : List Nat} {consumed : Nat}
    (h : decodeFrom decoding bytes = .ok (values, consumed)) :
    ∃ used more, bytes = used ++ more ∧ DecodesExactly (decodeFrom decoding) used values := by
  obtain ⟨after, hrun⟩ := of_decodeFrom_eq_ok h
  obtain ⟨used, more, _, rfl, hspan⟩ := hexact.spans () hrun
  refine ⟨used, more, rfl, fun more => ?_, fun front hfront hne => ?_⟩
  · rw [decodeFrom, ByteInput.start, hspan.takes 0 more, Nat.zero_add]
  · obtain ⟨e, s, herror, he⟩ := hspan.misses 0 front hfront hne
    exact ⟨e, by rw [decodeFrom, ByteInput.start, herror], he⟩

end Codec

/-- The bytes of a run are those of its sum and those of the bits. -/
theorem Interpolative.decode_exactly {bytes : List UInt8} {n : Nat} {hint : Option Nat}
    {values : List Nat} {consumed : Nat} (h : decode bytes n hint = .ok (values, consumed)) :
    ∃ used more, bytes = used ++ more ∧
      Codec.DecodesExactly (decode · n hint) used values := by
  by_cases hn : n = 0
  · subst hn
    obtain ⟨rfl, -⟩ := Prod.mk.inj (Except.ok.inj h)
    exact ⟨[], bytes, rfl, .nothing fun _ => rfl⟩
  obtain ⟨sum, input, sums, bits, htotal, hsums, rfl, -⟩ := of_decode_eq_ok hn h
  obtain ⟨first, rest, _, rfl, hfirst⟩ := (totalOf_exact hint).spans () htotal
  obtain rfl := hfirst.eq_of_run htotal
  obtain ⟨second, more, held, rfl, hsecond⟩ := (unbisect_exact _ _ _).spans [] hsums
  refine ⟨first ++ second, more, (List.append_assoc _ _ _).symm, fun more => ?_,
    fun front hfront hne => ?_⟩
  · rw [decode_eq hn, List.append_assoc, ByteInput.start, hfirst.takes 0 (second ++ more)]
    simp only
    rw [BitInput.start, hsecond.takes 0 more]
    simp only [Nat.zero_add, List.length_append]
  · obtain ⟨hcut, hshort⟩ | ⟨cut, rfl, hcut, hshort⟩ := cut_of_append hfront hne
    · obtain ⟨e, s, herror, he⟩ := hfirst.misses 0 front hcut hshort
      exact ⟨e, by rw [decode_eq hn, ByteInput.start, herror], he⟩
    · obtain ⟨e, s, herror, he⟩ := hsecond.misses 0 cut hcut hshort
      refine ⟨e, ?_, he⟩
      rw [decode_eq hn, ByteInput.start, hfirst.takes 0 cut]
      simp only
      rw [BitInput.start, herror]

/-- **A decoded block is decoded exactly from the bytes that it takes.** -/
theorem Codec.decode_exactly {codec : Codec} {bytes : List UInt8} {n : Nat} {hint : Option Nat}
    {values : List Nat} {consumed : Nat}
    (h : codec.decode bytes n hint = .ok (values, consumed)) :
    ∃ used more, bytes = used ++ more ∧ DecodesExactly (codec.decode · n hint) used values := by
  by_cases hn : n = 0
  · subst hn
    obtain ⟨rfl, -⟩ := Prod.mk.inj (Except.ok.inj h)
    exact ⟨[], bytes, rfl, .nothing fun _ => rfl⟩
  by_cases hcharge : codec.usesInterpolative n = true
  · have heq : (codec.decode · n hint) = (Interpolative.decode · n hint) := by
      funext bytes
      rw [decode, if_neg hn, if_pos hcharge]
    rw [heq]
    exact Interpolative.decode_exactly (congrFun heq bytes ▸ h)
  · have heq : (codec.decode · n hint) = (codec.decodeBlock · n) := by
      funext bytes
      rw [decode, if_neg hn, if_neg hcharge]
    have hblock : codec.decodeBlock bytes n = .ok (values, consumed) := congrFun heq bytes ▸ h
    rw [heq]
    cases codec with
    | vbyte =>
        exact decodeFrom_exactly (decodeTimes_exact Base128.continued.decodeOne_exact n) hblock
    | groupVarint => exact decodeFrom_exactly (GroupVarint.decode_exact n) hblock
    | groupUnary => exact decodeFrom_exactly (GroupUnary.decodeGroups_exact n n) hblock
    | streamVByte => exact decodeFrom_exactly (StreamVByte.decode_exact n) hblock
    | interpolative =>
        have hrun : Interpolative.decode bytes n none = .ok (values, consumed) := hblock
        exact Interpolative.decode_exactly hrun

/-- A block is decoded from the bytes that it takes, whatever follows the bytes it was
decoded from. -/
theorem Codec.decode_append {codec : Codec} {bytes : List UInt8} {n : Nat} {hint : Option Nat}
    {values : List Nat} {consumed : Nat} (h : codec.decode bytes n hint = .ok (values, consumed))
    (more : List UInt8) :
    codec.decode (bytes ++ more) n hint = .ok (values, consumed) ∧ consumed ≤ bytes.length := by
  obtain ⟨used, rest, rfl, hexact⟩ := decode_exactly h
  obtain ⟨-, rfl⟩ := Prod.mk.inj (Except.ok.inj (h.symm.trans (hexact.takes rest)))
  refine ⟨?_, ?_⟩
  · rw [List.append_assoc]
    exact hexact.takes (rest ++ more)
  · rw [List.length_append]
    exact Nat.le_add_right _ _

end Postings
