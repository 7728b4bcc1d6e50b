import Postings.Proofs.Codec.Block

/-!
# How long a block gets

No codec takes more than a fixed number of bytes for a value of 32 bits.  The bytes
are counted where they are made: a value has at most five digits of seven bits and
four of eight, a group at most one byte beside its values, and a symbol of a
bisection at most 32 bits.
-/

namespace Postings

/-- Pieces of bounded length are together no longer than that for each element. -/
theorem length_flatMap_le {α β : Type} {f : α → List β} {xs : List α} {k : Nat}
    (h : ∀ x ∈ xs, (f x).length ≤ k) : (xs.flatMap f).length ≤ k * xs.length := by
  induction xs with
  | nil => exact Nat.zero_le _
  | cons x xs ih =>
      have hx := h x (.head _)
      have hxs := ih fun y hy => h y (.tail _ hy)
      rw [List.flatMap_cons, List.length_append, List.length_cons, Nat.mul_succ]
      omega

/-- A value takes a byte for each digit. -/
theorem length_encodeOne (form : Base128) (x : Nat) :
    (form.encodeOne x).length = digitCount 7 x := by
  fun_induction form.encodeOne x with
  | case1 x hx => exact (Nat.le_antisymm (digitCount_le Nat.one_pos hx) (digitCount_pos 7 x)).symm
  | case2 x hx ih =>
      rw [List.length_cons, ih, digitCount_div (x := x) (by decide) (Nat.le_of_not_lt hx)]

theorem length_encodeOne_le_five (form : Base128) {x : Nat} (h : x < 2 ^ 32) :
    (form.encodeOne x).length ≤ 5 := by
  rw [length_encodeOne]
  exact digitCount_le (by decide) (Nat.lt_of_lt_of_le h (by decide))

theorem length_minimalBytes_le {x : Nat} (h : x < 2 ^ 32) : (minimalBytes x).length ≤ 4 := by
  rw [length_minimalBytes]
  exact digitCount_le_four h

theorem length_chunks_le (values : List Nat) : (chunks 4 values).length ≤ values.length := by
  rw [length_chunks_four]
  omega

theorem length_groupVarint_le {values : List Nat} (h : ∀ x ∈ values, x < 2 ^ 32) :
    (GroupVarint.encode values).length ≤ 5 * values.length := by
  have hbytes : ∀ groups : List (List Nat), (groups.flatMap fun group =>
      (lengthByte group).toUInt8 :: group.flatMap minimalBytes).length =
        groups.length + (groups.flatten.flatMap minimalBytes).length := by
    intro groups
    induction groups with
    | nil => rfl
    | cons group groups ih =>
        rw [List.flatMap_cons, List.length_append, ih, List.flatten_cons, List.flatMap_append,
          List.length_append, List.length_cons, List.length_cons]
        omega
  have hcount := length_chunks_le values
  have hvalues := length_flatMap_le (f := minimalBytes) fun x hx => length_minimalBytes_le (h x hx)
  rw [GroupVarint.encode, hbytes, flatten_chunks]
  omega

theorem length_streamVByte_le {values : List Nat} (h : ∀ x ∈ values, x < 2 ^ 32) :
    (StreamVByte.encode values).length ≤ 5 * values.length := by
  have hcount := length_chunks_le values
  have hvalues := length_flatMap_le (f := minimalBytes) fun x hx => length_minimalBytes_le (h x hx)
  rw [StreamVByte.encode, List.length_append, List.length_map]
  omega

theorem length_groupUnary_le {values : List Nat} (h : ∀ x ∈ values, x < 2 ^ 32) :
    (GroupUnary.encode values).length ≤ 9 * values.length := by
  have hreadable : ∀ group ∈ GroupUnary.groups 0 [] values, GroupUnary.Readable group :=
    fun group hgroup => GroupUnary.readable_of_mem_groups h (by simp) (by simp) (by omega) hgroup
  have hcount := GroupUnary.length_le_flatten fun group hgroup => (hreadable group hgroup).ne_nil
  have hbytes := length_flatMap_le (f := GroupUnary.encodeGroup) fun group hgroup =>
    Nat.le_of_eq (GroupUnary.length_encodeGroup (hreadable group hgroup))
  rw [GroupUnary.flatten_groups, List.nil_append] at hcount
  rw [GroupUnary.encode]
  omega

namespace Interpolative

theorem length_truncatedBinary_le {x range : Nat} (h : range ≤ 2 ^ 32) :
    (truncatedBinary x range).length ≤ 32 := by
  have hwidth := ceilLog2_le h
  rw [truncatedBinary]
  split
  · exact Nat.zero_le _
  · rename_i hrange
    have hpos := ceilLog2_pos (show 1 < range by omega)
    simp only
    split
    · rw [length_lowFirst]
      omega
    · rw [List.length_append, length_lowFirst, List.length_singleton]
      omega

theorem length_bisect_le {sums : List Nat} {low high : Nat} (hsums : ∀ s ∈ sums, s < 2 ^ 32)
    (h : high < 2 ^ 32) : (bisect sums low high).length ≤ 32 * sums.length := by
  fun_induction bisect sums low high with
  | case1 => exact Nat.zero_le _
  | case2 sums low high hopen half middle ihLeft ihRight =>
      have hpos : sums.length ≠ 0 := fun hzero => hopen (.inl (List.length_eq_zero_iff.mp hzero))
      have hhalf : half < sums.length := by omega
      have hmiddle : middle = sums[half] := by simp [middle, hhalf]
      have hbelow : middle < 2 ^ 32 := by
        rw [hmiddle]
        exact hsums _ (List.getElem_mem hhalf)
      have hsymbol := length_truncatedBinary_le (x := middle - low) (show high - low + 1 ≤ 2 ^ 32 by
        omega)
      have hleft := ihLeft (fun s hs => hsums s (List.mem_of_mem_take hs)) hbelow
      have hright := ihRight (fun s hs => hsums s (List.mem_of_mem_drop hs)) h
      rw [List.length_take] at hleft
      rw [List.length_drop] at hright
      rw [List.length_append, List.length_append]
      omega

theorem length_encode_le {values : List Nat} {hint : Option Nat} {bytes : List UInt8}
    (h : encode values hint = .ok bytes) : bytes.length ≤ 9 * values.length := by
  cases values with
  | nil =>
      obtain rfl := Except.ok.inj h
      exact Nat.zero_le _
  | cons x values =>
      obtain ⟨sums, hsums, hne, hlast, hbytes⟩ := encode_cons_eq_ok h
      obtain ⟨hlen, -, -, hbounds, -⟩ := runningSums_spec hsums
      have hhead := length_encodeOne_le_five Base128.terminated hlast
      have hbits : (bisect sums.dropLast 0 (sums.getLastD 0)).length ≤ _ :=
        length_bisect_le (fun s hs => (hbounds s (List.mem_of_mem_dropLast hs)).2) hlast
      have hpacked := length_packBits (bisect sums.dropLast 0 (sums.getLastD 0))
      rw [List.length_dropLast, hlen] at hbits
      have hpos : 0 < (x :: values).length := Nat.succ_pos _
      rcases hbytes with ⟨-, rfl⟩ | ⟨-, rfl⟩
      · rw [List.length_append]
        omega
      · omega

end Interpolative

/-- A block takes at most nine bytes for each value. -/
theorem Codec.length_encode_le {codec : Codec} {values : List Nat} {hint : Option Nat}
    {bytes : List UInt8} (hvalues : ∀ x ∈ values, x < 2 ^ 32)
    (h : codec.encode values hint = .ok bytes) : bytes.length ≤ 9 * values.length := by
  rw [encode] at h
  split at h
  · obtain rfl := Except.ok.inj h
    exact Nat.zero_le _
  split at h
  · exact Interpolative.length_encode_le h
  cases codec with
  | vbyte =>
      obtain rfl := Except.ok.inj h
      have := length_flatMap_le fun x hx =>
        length_encodeOne_le_five Base128.continued (hvalues x hx)
      exact this.trans (Nat.mul_le_mul_right _ (by omega))
  | groupVarint =>
      obtain rfl := Except.ok.inj h
      exact (length_groupVarint_le hvalues).trans (Nat.mul_le_mul_right _ (by omega))
  | groupUnary =>
      obtain rfl := Except.ok.inj h
      exact length_groupUnary_le hvalues
  | streamVByte =>
      obtain rfl := Except.ok.inj h
      exact (length_streamVByte_le hvalues).trans (Nat.mul_le_mul_right _ (by omega))
  | interpolative =>
      have hrun : Interpolative.encode values none = .ok bytes := h
      exact Interpolative.length_encode_le hrun

end Postings
