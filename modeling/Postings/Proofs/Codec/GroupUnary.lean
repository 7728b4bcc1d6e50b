import Postings.Proofs.Codec.Bytes

/-!
# Groups with marked ends, read back

A group is read by walking its data bytes: bytes are collected until one is marked,
and then they are a value.  The bytes that fill a group up are never marked, so
they are collected and thrown away.  Cutting a run into groups keeps two facts: no
group is empty, so that its marks are not zero, and its data takes at most eight
bytes.
-/

namespace Postings
namespace GroupUnary

/-! ## The walk over a group -/

/-- Unmarked bytes yield no value. -/
theorem valuesOfMarks_zero (n : Nat) (value data : List UInt8) :
    valuesOfMarks n 0 value data = .ok [] := by
  induction data generalizing value with
  | nil => rfl
  | cons byte data ih =>
      rw [valuesOfMarks]
      split
      · rfl
      · simp only [Nat.zero_mod, if_true, Nat.zero_div]
        exact ih _

/-- Bytes of which only the last is marked are one value, if there are at most four. -/
theorem valuesOfMarks_value {bytes value data : List UInt8} {n m : Nat} (hbytes : bytes ≠ [])
    (hn : 0 < n) :
    valuesOfMarks n (2 ^ (bytes.length - 1) + 2 ^ bytes.length * m) value (bytes ++ data) =
      if 4 < value.length + bytes.length then
        .error (.invalidFormat "varintg8iu" "value longer than four bytes")
      else (valuesOfMarks (n - 1) m [] data).map (ofLeBytes (value ++ bytes) :: ·) := by
  induction bytes generalizing value with
  | nil => exact absurd rfl hbytes
  | cons byte bytes ih =>
      rw [List.cons_append, valuesOfMarks, if_neg (by omega)]
      cases bytes with
      | nil =>
          have hodd : (2 ^ ([byte].length - 1) + 2 ^ [byte].length * m) % 2 ≠ 0 := by
            simp only [List.length_singleton, Nat.sub_self, Nat.pow_zero, Nat.pow_one]
            omega
          have hhalf : (2 ^ ([byte].length - 1) + 2 ^ [byte].length * m) / 2 = m := by
            simp only [List.length_singleton, Nat.sub_self, Nat.pow_zero, Nat.pow_one]
            omega
          rw [if_neg hodd, hhalf]
          rfl
      | cons next bytes =>
          have hmarks : 2 ^ ((byte :: next :: bytes).length - 1) +
              2 ^ (byte :: next :: bytes).length * m =
              2 * (2 ^ ((next :: bytes).length - 1) + 2 ^ (next :: bytes).length * m) := by
            simp only [List.length_cons, Nat.add_sub_cancel, Nat.pow_succ]
            rw [Nat.mul_add, Nat.mul_comm _ 2, Nat.mul_comm _ 2, Nat.mul_assoc]
          have hlength : (value ++ [byte]).length + (next :: bytes).length =
              value.length + (byte :: next :: bytes).length := by
            simp only [List.length_append, List.length_cons, List.length_nil]
            omega
          rw [hmarks, if_pos (Nat.mul_mod_right 2 _), Nat.mul_div_cancel_left _ (by omega),
            ih (List.cons_ne_nil _ _), hlength, List.append_assoc, List.singleton_append]

theorem endMarks_add (k used : Nat) (group : List Nat) :
    endMarks (k + used) group = 2 ^ k * endMarks used group := by
  induction group generalizing used with
  | nil => simp [endMarks]
  | cons x group ih =>
      have := digitCount_pos 8 x
      rw [endMarks, endMarks, Nat.add_assoc, ih, Nat.mul_add, ← Nat.pow_add]
      congr 2
      omega

/-- The marks of a group are those of its first value and of the rest. -/
theorem endMarks_cons (x : Nat) (group : List Nat) :
    endMarks 0 (x :: group) =
      2 ^ ((minimalBytes x).length - 1) + 2 ^ (minimalBytes x).length * endMarks 0 group := by
  rw [endMarks, Nat.zero_add, length_minimalBytes, ← endMarks_add, Nat.add_zero]

/-- A group is read back, and what fills it up is not. -/
theorem valuesOfMarks_endMarks {group : List Nat} (h : ∀ x ∈ group, x < 2 ^ 32) {n : Nat}
    (hn : group.length ≤ n) (fill : List UInt8) :
    valuesOfMarks n (endMarks 0 group) [] (group.flatMap minimalBytes ++ fill) = .ok group := by
  induction group generalizing n with
  | nil => exact valuesOfMarks_zero n [] fill
  | cons x group ih =>
      have hx := digitCount_le_four (h x (.head _))
      have hpos := digitCount_pos 8 x
      rw [List.length_cons] at hn
      have hshort : ¬ 4 < ([] : List UInt8).length + (minimalBytes x).length := by
        rw [length_minimalBytes, List.length_nil]
        omega
      rw [endMarks_cons, List.flatMap_cons, List.append_assoc, valuesOfMarks_value
          (by rw [← List.length_pos_iff, length_minimalBytes]; exact hpos) (by omega),
        if_neg hshort, ih (fun y hy => h y (.tail _ hy)) (by omega), List.nil_append,
        ofLeBytes_minimalBytes]
      rfl

/-- The marks of a group lie on its data bytes. -/
theorem endMarks_lt (group : List Nat) :
    endMarks 0 group < 2 ^ (group.flatMap minimalBytes).length := by
  induction group with
  | nil => simp [endMarks]
  | cons x group ih =>
      have hpos := digitCount_pos 8 x
      have hsplit : 2 ^ (minimalBytes x).length = 2 * 2 ^ ((minimalBytes x).length - 1) := by
        rw [← Nat.pow_succ']
        congr 1
        rw [length_minimalBytes]
        omega
      have hpow := Nat.two_pow_pos ((minimalBytes x).length - 1)
      rw [endMarks_cons, List.flatMap_cons, List.length_append, Nat.pow_add]
      calc 2 ^ ((minimalBytes x).length - 1) + 2 ^ (minimalBytes x).length * endMarks 0 group
          < 2 ^ (minimalBytes x).length + 2 ^ (minimalBytes x).length * endMarks 0 group := by
            omega
        _ = 2 ^ (minimalBytes x).length * (endMarks 0 group + 1) := by
            rw [Nat.mul_succ, Nat.add_comm]
        _ ≤ 2 ^ (minimalBytes x).length * 2 ^ (group.flatMap minimalBytes).length :=
            Nat.mul_le_mul_left _ ih

/-! ## Groups of a run -/

/-- What a reader needs of a group. -/
structure Readable (group : List Nat) : Prop where
  /-- There is a value. -/
  ne_nil : group ≠ []
  /-- The values fit the data bytes. -/
  length_le : (group.flatMap minimalBytes).length ≤ 8
  /-- The values fit 32 bits. -/
  lt : ∀ x ∈ group, x < 2 ^ 32

theorem length_encodeGroup {group : List Nat} (h : Readable group) :
    (encodeGroup group).length = 9 := by
  have := h.length_le
  rw [encodeGroup, List.length_cons, List.length_append, List.length_replicate]
  omega

theorem toNat_endMarks {group : List Nat} (h : Readable group) :
    (endMarks 0 group).toUInt8.toNat = endMarks 0 group := by
  rw [Nat.toUInt8, UInt8.toNat_ofNat', Nat.mod_eq_of_lt]
  exact Nat.lt_of_lt_of_le (endMarks_lt group) (Nat.pow_le_pow_right (by omega) h.length_le)

theorem endMarks_pos {group : List Nat} (h : group ≠ []) : 0 < endMarks 0 group := by
  cases group with
  | nil => exact absurd rfl h
  | cons x group =>
      rw [endMarks]
      exact Nat.add_pos_left (Nat.two_pow_pos _) _

/-- Cutting a run keeps its values in order. -/
theorem flatten_groups (used : Nat) (group values : List Nat) :
    (groups used group values).flatten = group ++ values := by
  induction values generalizing used group with
  | nil =>
      rw [groups]
      cases group <;> simp
  | cons x values ih =>
      rw [groups]
      split
      · rw [List.flatten_cons, ih, List.singleton_append]
      · rw [ih, List.append_assoc, List.singleton_append]

/-- Every group of a run is readable, if the open group can be closed. -/
theorem readable_of_mem_groups {used : Nat} {group values : List Nat}
    (hvalues : ∀ x ∈ values, x < 2 ^ 32) (hgroup : ∀ x ∈ group, x < 2 ^ 32)
    (hused : (group.flatMap minimalBytes).length = used) (hfit : used ≤ 8)
    {found : List Nat} (hfound : found ∈ groups used group values) : Readable found := by
  induction values generalizing used group with
  | nil =>
      rw [groups] at hfound
      cases group with
      | nil => simp at hfound
      | cons y group =>
          simp only [List.isEmpty_cons, Bool.false_eq_true, if_false, List.mem_singleton] at hfound
          subst hfound
          exact ⟨List.cons_ne_nil _ _, by omega, hgroup⟩
  | cons x values ih =>
      have hx := digitCount_le_four (hvalues x (.head _))
      rw [groups] at hfound
      split at hfound
      · rename_i hover
        rcases List.mem_cons.mp hfound with rfl | hfound
        · refine ⟨?_, by omega, hgroup⟩
          rintro rfl
          simp at hused
          omega
        · refine ih (fun y hy => hvalues y (.tail _ hy)) ?_ (by simp) (by omega) hfound
          intro y hy
          obtain rfl := List.mem_singleton.mp hy
          exact hvalues y (.head _)
      · refine ih (fun y hy => hvalues y (.tail _ hy)) ?_ ?_ (by omega) hfound
        · intro y hy
          rcases List.mem_append.mp hy with hy | hy
          · exact hgroup y hy
          · obtain rfl := List.mem_singleton.mp hy
            exact hvalues y (.head _)
        · rw [List.flatMap_append, List.length_append, hused]
          simp

/-! ## Runs -/

/-- Lists that are not empty are no more than their elements. -/
theorem length_le_flatten {lists : List (List Nat)} (h : ∀ list ∈ lists, list ≠ []) :
    lists.length ≤ lists.flatten.length := by
  induction lists with
  | nil => exact Nat.le_refl 0
  | cons list lists ih =>
      have hpos := List.length_pos_iff.mpr (h list (.head _))
      have := ih fun l hl => h l (.tail _ hl)
      rw [List.length_cons, List.flatten_cons, List.length_append]
      omega

/-- Groups one after another are read back. -/
theorem takes_decodeGroups {groups : List (List Nat)} (h : ∀ group ∈ groups, Readable group)
    {left : Nat} (hleft : groups.length ≤ left) :
    Takes (decodeGroups left groups.flatten.length) (groups.flatMap encodeGroup)
      groups.flatten := by
  induction groups generalizing left with
  | nil =>
      cases left with
      | zero => exact .pure []
      | succ left => exact .pure []
  | cons group groups ih =>
      have hgroup := h group (.head _)
      have hbytes := takes_nextBytes "varintg8iu" (encodeGroup group)
      rw [length_encodeGroup hgroup] at hbytes
      obtain ⟨left, rfl⟩ : ∃ l, left = l + 1 := ⟨left - 1, by simp at hleft; omega⟩
      have hlength : (group :: groups).flatten.length = group.length + groups.flatten.length := by
        rw [List.flatten_cons, List.length_append]
      have hpos : 0 < group.length := List.length_pos_iff.mpr hgroup.ne_nil
      have hmarks : ((encodeGroup group).headD 0).toNat = endMarks 0 group :=
        toNat_endMarks hgroup
      have hread : valuesOfMarks (group :: groups).flatten.length (endMarks 0 group) []
          (encodeGroup group).tail = .ok group :=
        valuesOfMarks_endMarks hgroup.lt (by omega) _
      rw [decodeGroups, if_neg (by omega), List.flatMap_cons]
      refine hbytes.bind ?_
      simp only [hmarks, (endMarks_pos hgroup.ne_nil).ne', if_false, hread]
      have hrest := ih (fun g hg => h g (.tail _ hg)) (by simpa using hleft)
      have := hrest.bind_pure (group ++ ·)
      rw [show groups.flatten.length = (group :: groups).flatten.length - group.length by omega]
        at this
      exact this

/-- A run of values of 32 bits is read back. -/
theorem takes_groupUnary {values : List Nat} (h : ∀ x ∈ values, x < 2 ^ 32) :
    Takes (decode values.length) (encode values) values := by
  have hreadable : ∀ group ∈ groups 0 [] values, Readable group := fun group hgroup =>
    readable_of_mem_groups h (by simp) (by simp) (by omega) hgroup
  have hflatten : (groups 0 [] values).flatten = values := flatten_groups 0 [] values
  have hcount : (groups 0 [] values).length ≤ values.length := by
    calc (groups 0 [] values).length
        ≤ (groups 0 [] values).flatten.length :=
          length_le_flatten fun group hgroup => (hreadable group hgroup).ne_nil
      _ = values.length := by rw [hflatten]
  have := takes_decodeGroups hreadable hcount
  rwa [hflatten] at this

end GroupUnary
end Postings
