import Postings.Codec.Buffer
import Postings.Proofs.Codec.CheckedSymbols

/-!
# Blocks in a buffer, read back

A writer into a buffer *emits* some bytes when, whatever the buffer holds, it appends
exactly these (`Emits`); what two writers emit one after the other is emitted by their
sequence.  The five codes emit the bytes that they are specified by.

Three of them are not written from front to back.  The length byte of a group and those
of a run are changed behind the front of the buffer, so that for these what the buffer
holds is followed from value to value; and the group that is open is told by the values
that have been put into it (`OpenGroup.of`).  The word in which bits are held back is the
number of a checked writer (`BitWriter.checked`), since none of its bits is lost.

A run is refused before anything is written.  So a buffer holds what it held, and behind
it a block that is read back, or nothing.
-/

namespace Postings

/-! ## Appending bytes -/

/-- Whatever the buffer holds, the computation answers and appends exactly these bytes. -/
def Emits {α : Type} (x : Buffering α) (bytes : List UInt8) (answer : α) : Prop :=
  ∀ buffer, Attempt.runFrom x buffer = (.ok answer, buffer ++ bytes)

namespace Emits

variable {α β : Type}

theorem pure (a : α) : Emits (Pure.pure a) [] a := by
  intro buffer
  rw [Attempt.runFrom_pure, List.append_nil]

/-- Computations in sequence append their bytes in sequence. -/
theorem bind {x : Buffering α} {f : α → Buffering β} {s t : List UInt8} {a : α} {b : β}
    (hx : Emits x s a) (hf : Emits (f a) t b) : Emits (x >>= f) (s ++ t) b := by
  intro buffer
  rw [Attempt.runFrom_bind, hx]
  simp only
  rw [hf, List.append_assoc]

theorem pushBytes (bytes : List UInt8) : Emits (Postings.pushBytes bytes) bytes () :=
  fun _ => rfl

theorem pushByte (byte : UInt8) : Emits (Postings.pushByte byte) [byte] () :=
  .pushBytes [byte]

theorem forM {write : α → Buffering Unit} {code : α → List UInt8} {items : List α}
    (h : ∀ x ∈ items, Emits (write x) (code x) ()) :
    Emits (items.forM write) (items.flatMap code) () := by
  induction items with
  | nil => exact .pure ()
  | cons x items ih =>
      obtain ⟨hx, hitems⟩ := List.forall_mem_cons.mp h
      rw [List.forM, List.flatMap_cons]
      exact hx.bind (ih hitems)

end Emits

/-! ## Seven bits a byte -/

namespace Base128

variable (form : Base128)

theorem emits_encodeOne (x : Nat) : Emits (form.encodeOneOnto x) (form.encodeOne x) () := by
  fun_induction form.encodeOne x with
  | case1 x h =>
      rw [encodeOneOnto, if_pos h]
      exact .pushByte _
  | case2 x h ih =>
      rw [encodeOneOnto, if_neg h]
      exact (Emits.pushByte _).bind ih

theorem emits_encode (values : List Nat) : Emits (form.encodeOnto values) (form.encode values) () :=
  .forM fun x _ => form.emits_encodeOne x

end Base128

/-! ## Lengths in two bits -/

/-- Bits are put above those that a byte has. -/
theorem or_shiftLeft_toUInt8 {low k high : Nat} (hlow : low < 2 ^ k) (hk : k < 8)
    (hfits : low + 2 ^ k * high < 2 ^ 8) :
    low.toUInt8 ||| high.toUInt8 <<< k.toUInt8 = (low + 2 ^ k * high).toUInt8 := by
  have hpos := Nat.two_pow_pos k
  have hhigh : high ≤ 2 ^ k * high := Nat.le_mul_of_pos_left high hpos
  have htoNat : ∀ {n : Nat}, n < 2 ^ 8 → n.toUInt8.toNat = n := fun {n} h => by
    rw [Nat.toUInt8, UInt8.toNat_ofNat', Nat.mod_eq_of_lt h]
  rw [← UInt8.toNat_inj, UInt8.toNat_or, UInt8.toNat_shiftLeft, htoNat (show low < 2 ^ 8 by omega),
    htoNat (show high < 2 ^ 8 by omega), htoNat (show k < 2 ^ 8 by omega), htoNat hfits,
    Nat.mod_eq_of_lt hk, Nat.shiftLeft_eq, Nat.mod_eq_of_lt (by rw [Nat.mul_comm]; omega),
    or_above hlow]

theorem lengthByte_append (values others : List Nat) :
    lengthByte (values ++ others) = lengthByte values + 4 ^ values.length * lengthByte others := by
  induction values with
  | nil => simp [lengthByte]
  | cons x values ih =>
      rw [List.cons_append, lengthByte, lengthByte, ih, List.length_cons, Nat.pow_succ,
        Nat.mul_add, Nat.add_assoc, Nat.mul_comm (4 ^ _) 4, Nat.mul_assoc]

/-- The length of one more value is put above those of the values before it. -/
theorem or_lengthBits {values : List Nat} {x : Nat} (h : ∀ y ∈ values ++ [x], y < 2 ^ 32)
    (hlength : values.length < 4) :
    (lengthByte values).toUInt8 ||| lengthBits values.length x =
      (lengthByte (values ++ [x])).toUInt8 := by
  have hfour : ∀ k : Nat, 4 ^ k = 2 ^ (2 * k) := fun k => (Nat.pow_mul 2 2 k).symm
  have hlow := lengthByte_lt fun y hy => h y (List.mem_append_left _ hy)
  have hall := lengthByte_lt h
  have hfits : 4 ^ (values ++ [x]).length ≤ 2 ^ 8 := by
    rw [hfour, List.length_append, List.length_singleton]
    exact Nat.pow_le_pow_right (by decide) (by omega)
  have hsum : lengthByte (values ++ [x]) =
      lengthByte values + 2 ^ (2 * values.length) * (digitCount 8 x - 1) := by
    rw [lengthByte_append, hfour]
    rfl
  rw [hfour] at hlow
  rw [hsum] at hall ⊢
  exact or_shiftLeft_toUInt8 hlow (by omega) (by omega)

/-- A piece of a list has at most four of its elements. -/
theorem of_mem_chunks_four {values piece : List Nat} (h : piece ∈ chunks 4 values) :
    piece.length ≤ 4 ∧ piece ⊆ values := by
  fun_induction chunks 4 values with
  | case1 => cases h
  | case2 x xs ih =>
      rcases List.mem_cons.mp h with rfl | h
      · refine ⟨?_, List.cons_subset_cons x (List.take_subset 3 xs)⟩
        rw [length_cons_take]
        omega
      · obtain ⟨hlength, hsubset⟩ := ih h
        exact ⟨hlength, fun y hy => .tail _ (List.drop_subset 3 xs (hsubset hy))⟩

namespace GroupVarint

theorem emits_pushValues {group : List Nat} :
    ∀ {pushed : List Nat}, (∀ x ∈ pushed ++ group, x < 2 ^ 32) → (pushed ++ group).length ≤ 4 →
      Emits (pushValues pushed.length (lengthByte pushed).toUInt8 group)
        (group.flatMap minimalBytes) (lengthByte (pushed ++ group)).toUInt8 := by
  induction group with
  | nil =>
      intro pushed _ _
      rw [List.append_nil]
      exact .pure _
  | cons x group ih =>
      intro pushed h hlength
      have hassoc : pushed ++ x :: group = pushed ++ [x] ++ group := by
        rw [List.append_assoc, List.singleton_append]
      rw [hassoc] at h hlength ⊢
      have hnext := ih h hlength
      rw [List.length_append, List.length_append, List.length_singleton] at hlength
      rw [pushValues, or_lengthBits (fun y hy => h y (List.mem_append_left _ hy)) (by omega),
        List.flatMap_cons]
      rw [List.length_append, List.length_singleton] at hnext
      exact (Emits.pushBytes _).bind hnext

/-- The length byte takes the room that was left for it. -/
theorem emits_pushGroup {group : List Nat} (h : ∀ x ∈ group, x < 2 ^ 32)
    (hlength : group.length ≤ 4) :
    Emits (pushGroup group) ((lengthByte group).toUInt8 :: group.flatMap minimalBytes) () := by
  intro buffer
  have hvalues := @emits_pushValues group [] h hlength
  have hroom := hvalues (buffer ++ [0])
  rw [pushGroup]
  simp only [Attempt.runFrom_bind, Attempt.runFrom_get, Emits.pushByte 0 buffer]
  rw [show pushValues 0 0 group = pushValues [].length (lengthByte []).toUInt8 group from rfl,
    hroom]
  simp only [Attempt.runFrom_modify, List.nil_append, List.append_assoc, List.singleton_append,
    Prod.mk.injEq, true_and]
  rw [List.set_append_right _ _ (Nat.le_refl _), Nat.sub_self]
  rfl

theorem emits_encode {values : List Nat} (h : ∀ x ∈ values, x < 2 ^ 32) :
    Emits (encodeOnto values) (encode values) () :=
  .forM fun _ hgroup =>
    have ⟨hlength, hvalues⟩ := of_mem_chunks_four hgroup
    emits_pushGroup (fun x hx => h x (hvalues hx)) hlength

end GroupVarint

/-- The byte behind a list is changed. -/
theorem modify_length {α : Type} (head : List α) (a : α) (tail : List α) (f : α → α) :
    (head ++ a :: tail).modify head.length f = head ++ f a :: tail := by
  induction head with
  | nil => rfl
  | cons b head ih => exact congrArg (b :: ·) ih

namespace StreamVByte

/-- Values of a run are pushed behind those before them. -/
theorem pushValues_append (start : Nat) (values others : List Nat) :
    ∀ i, pushValues start i (values ++ others) = (do
      pushValues start i values
      pushValues start (i + values.length) others) := by
  induction values with
  | nil =>
      intro i
      rw [List.nil_append, pushValues, pure_bind]
      rfl
  | cons x values ih =>
      intro i
      rw [List.cons_append, pushValues, pushValues, ih, List.length_cons, Nat.add_right_comm i,
        Nat.add_assoc i]
      simp only [bind_assoc]

/-- The lengths of a group are collected in its byte, and its values pushed at the end. -/
theorem runFrom_pushValues_group {start g : Nat} {head : List UInt8}
    (hhead : head.length = start + g) {group : List Nat} :
    ∀ {pushed : List Nat} (tail : List UInt8), (∀ x ∈ pushed ++ group, x < 2 ^ 32) →
      (pushed ++ group).length ≤ 4 →
      Attempt.runFrom (pushValues start (4 * g + pushed.length) group)
        (head ++ (lengthByte pushed).toUInt8 :: tail) =
          (.ok (), head ++ (lengthByte (pushed ++ group)).toUInt8 ::
            (tail ++ group.flatMap minimalBytes)) := by
  induction group with
  | nil =>
      intro pushed tail _ _
      rw [pushValues, Attempt.runFrom_pure, List.append_nil, List.flatMap_nil, List.append_nil]
  | cons x group ih =>
      intro pushed tail h hlength
      have hassoc : pushed ++ x :: group = pushed ++ [x] ++ group := by
        rw [List.append_assoc, List.singleton_append]
      rw [hassoc] at h hlength ⊢
      have hnext := ih (tail ++ minimalBytes x) h hlength
      rw [List.length_append, List.length_append, List.length_singleton] at hlength
      have hbyte : start + (4 * g + pushed.length) / 4 = head.length := by omega
      have hbits : (4 * g + pushed.length) % 4 = pushed.length := by omega
      have hcollect : (head ++ (lengthByte pushed).toUInt8 :: tail).modify head.length
          (· ||| lengthBits pushed.length x) =
            head ++ (lengthByte (pushed ++ [x])).toUInt8 :: tail := by
        rw [modify_length, or_lengthBits (fun y hy => h y (List.mem_append_left _ hy)) (by omega)]
      rw [List.length_append, List.length_singleton] at hnext
      rw [pushValues, hbyte, hbits]
      simp only [Attempt.runFrom_bind, Attempt.runFrom_modify, hcollect,
        Emits.pushBytes (minimalBytes x) _]
      rw [List.append_assoc, List.cons_append, List.flatMap_cons, Nat.add_assoc, hnext,
        List.append_assoc tail]

/-- The lengths of a run are collected in the room that was made for them. -/
theorem runFrom_pushValues {start : Nat} {values : List Nat} :
    ∀ {g : Nat} {head : List UInt8} (tail : List UInt8), (∀ x ∈ values, x < 2 ^ 32) →
      head.length = start + g →
      Attempt.runFrom (pushValues start (4 * g) values)
        (head ++ (List.replicate (chunks 4 values).length 0 ++ tail)) =
          (.ok (), head ++ ((chunks 4 values).map (fun group => (lengthByte group).toUInt8) ++
            (tail ++ values.flatMap minimalBytes))) := by
  fun_induction chunks 4 values with
  | case1 =>
      intro g head tail _ _
      rw [pushValues, Attempt.runFrom_pure, List.flatMap_nil, List.append_nil]
      rfl
  | case2 x xs ih =>
      intro g head tail h hhead
      have hsplit : x :: xs = (x :: xs.take 3) ++ xs.drop 3 := by
        rw [List.cons_append, List.take_append_drop]
      have hgroup : ∀ y ∈ x :: xs.take 3, y < 2 ^ 32 := fun y hy =>
        h y (List.cons_subset_cons x (List.take_subset 3 xs) hy)
      have hrest : ∀ y ∈ xs.drop 3, y < 2 ^ 32 := fun y hy =>
        h y (.tail _ (List.drop_subset 3 xs hy))
      have hlength : (x :: xs.take 3).length ≤ 4 := by
        rw [length_cons_take]
        omega
      -- Where the group is not full, nothing follows it.
      have hnext : pushValues start (4 * g + (x :: xs.take 3).length) (xs.drop 3) =
          pushValues start (4 * (g + 1)) (xs.drop 3) := by
        by_cases hfull : 3 ≤ xs.length
        · rw [length_cons_take, List.length_cons, Nat.min_eq_right (by omega), Nat.mul_succ]
        · rw [List.drop_of_length_le (by omega), pushValues, pushValues]
      have hzero : (lengthByte []).toUInt8 = 0 := rfl
      have hrun := @runFrom_pushValues_group start g head hhead (x :: xs.take 3) []
        (List.replicate (chunks 4 (xs.drop 3)).length 0 ++ tail) hgroup hlength
      have hothers := @ih (g + 1) (head ++ [(lengthByte (x :: xs.take 3)).toUInt8])
        (tail ++ (x :: xs.take 3).flatMap minimalBytes) hrest
        (by rw [List.length_append, List.length_singleton, hhead, Nat.add_assoc])
      simp only [List.append_assoc, List.singleton_append] at hothers
      conv_lhs => rw [hsplit]
      rw [pushValues_append, hnext, Attempt.runFrom_bind, List.length_cons,
        List.replicate_succ, List.cons_append]
      rw [List.length_nil, Nat.add_zero, List.nil_append, List.append_assoc, hzero] at hrun
      rw [hrun]
      simp only
      rw [hothers, List.map_cons, List.cons_append, ← List.flatMap_append, ← hsplit]

theorem emits_encode {values : List Nat} (h : ∀ x ∈ values, x < 2 ^ 32) :
    Emits (encodeOnto values) (encode values) () := by
  intro buffer
  have hrun := @runFrom_pushValues buffer.length values 0 buffer [] h rfl
  rw [List.append_nil, List.nil_append, Nat.mul_zero, length_chunks_four] at hrun
  rw [encodeOnto]
  simp only [Attempt.runFrom_bind, Attempt.runFrom_get, Emits.pushBytes _ buffer]
  exact hrun

end StreamVByte

/-! ## Ends of values in one bit -/

namespace GroupUnary

theorem endMarks_append (used : Nat) (group : List Nat) (x : Nat) :
    endMarks used (group ++ [x]) = endMarks used group +
      2 ^ (used + (group.flatMap minimalBytes).length + digitCount 8 x - 1) := by
  induction group generalizing used with
  | nil => simp [endMarks]
  | cons y group ih =>
      rw [List.cons_append, endMarks, endMarks, ih, List.flatMap_cons, List.length_append,
        length_minimalBytes, ← Nat.add_assoc, ← Nat.add_assoc]

theorem length_data_append (group : List Nat) (x : Nat) :
    ((group ++ [x]).flatMap minimalBytes).length =
      (group.flatMap minimalBytes).length + digitCount 8 x := by
  rw [List.flatMap_append, List.flatMap_singleton, List.length_append, length_minimalBytes]

/-- The mark of one more value is put above those of the values before it. -/
theorem or_endMark {group : List Nat} {x : Nat}
    (hfits : (group.flatMap minimalBytes).length + digitCount 8 x ≤ 8) :
    (endMarks 0 group).toUInt8 |||
        (1 : UInt8) <<< ((group.flatMap minimalBytes).length + digitCount 8 x - 1).toUInt8 =
      (endMarks 0 (group ++ [x])).toUInt8 := by
  have hpos := digitCount_pos 8 x
  have hlow : endMarks 0 group < 2 ^ ((group.flatMap minimalBytes).length + digitCount 8 x - 1) :=
    Nat.lt_of_lt_of_le (endMarks_lt group) (Nat.pow_le_pow_right (by decide) (by omega))
  have hbyte : endMarks 0 (group ++ [x]) < 2 ^ 8 := by
    refine Nat.lt_of_lt_of_le (endMarks_lt (group ++ [x])) (Nat.pow_le_pow_right (by decide) ?_)
    rwa [length_data_append]
  rw [endMarks_append, Nat.zero_add] at hbyte ⊢
  have hor := @or_shiftLeft_toUInt8 _ _ 1 hlow (by omega) (by rwa [Nat.mul_one])
  rwa [Nat.mul_one] at hor

/-- Bytes are put into the room behind others, which is filled up with zeros. -/
theorem splice_padded (head more : List UInt8) (room : Nat) :
    (head ++ List.replicate room 0).take head.length ++ more ++
        (head ++ List.replicate room 0).drop (head.length + more.length) =
      head ++ more ++ List.replicate (room - more.length) 0 := by
  rw [List.take_left, List.drop_append, List.drop_of_length_le (Nat.le_add_right _ _),
    Nat.add_sub_cancel_left, List.nil_append, List.drop_replicate]

/-- The open group that these values have been put into. -/
def OpenGroup.of (group : List Nat) : OpenGroup :=
  let data := group.flatMap minimalBytes
  ⟨(endMarks 0 group).toUInt8, data ++ List.replicate (8 - data.length) 0, data.length⟩

theorem OpenGroup.add_of {group : List Nat} {x : Nat}
    (hfits : (group.flatMap minimalBytes).length + digitCount 8 x ≤ 8) :
    (OpenGroup.of group).add x = .of (group ++ [x]) := by
  have hdata := splice_padded (group.flatMap minimalBytes) (minimalBytes x)
    (8 - (group.flatMap minimalBytes).length)
  simp only [OpenGroup.add, OpenGroup.of, hdata]
  rw [length_minimalBytes, or_endMark hfits, length_data_append, List.flatMap_append,
    List.flatMap_singleton, Nat.sub_sub]

theorem OpenGroup.emits_flush (group : List Nat) :
    Emits (OpenGroup.of group).flush (encodeGroup group) .empty := by
  have h := (Emits.pushByte (OpenGroup.of group).marks).bind (f := fun _ => do
    pushBytes (OpenGroup.of group).data
    return OpenGroup.empty) ((Emits.pushBytes _).bind (.pure _))
  rwa [List.append_nil] at h

theorem OpenGroup.emits_close (group : List Nat) :
    Emits (OpenGroup.of group).close ((if group.isEmpty then [] else [group]).flatMap encodeGroup)
      () := by
  rw [OpenGroup.close]
  cases group with
  | nil => exact .pure ()
  | cons x group =>
      have hused : 0 < (OpenGroup.of (x :: group)).used := by
        have := digitCount_pos 8 x
        simp only [OpenGroup.of, List.flatMap_cons, List.length_append, length_minimalBytes]
        omega
      rw [if_pos hused]
      exact (OpenGroup.emits_flush (x :: group)).bind (.pure ())

/-- The groups are pushed one after another, the last when there are no more values. -/
theorem emits_pushValues {values : List Nat} (h : ∀ x ∈ values, x < 2 ^ 32) :
    ∀ {group : List Nat}, (group.flatMap minimalBytes).length ≤ 8 →
      Emits (do
          let group ← pushValues (.of group) values
          group.close)
        ((groups (group.flatMap minimalBytes).length group values).flatMap encodeGroup) () := by
  induction values with
  | nil =>
      intro group _
      rw [pushValues, pure_bind, groups]
      exact OpenGroup.emits_close group
  | cons x values ih =>
      intro group hgroup
      obtain ⟨hx, hvalues⟩ := List.forall_mem_cons.mp h
      have hfour := digitCount_le_four hx
      rw [pushValues, groups]
      by_cases hfull : 8 < (group.flatMap minimalBytes).length + digitCount 8 x
      · have hadd : OpenGroup.empty.add x = .of [x] :=
          @OpenGroup.add_of [] x (by rw [List.flatMap_nil, List.length_nil]; omega)
        have hlength : ([x].flatMap minimalBytes).length = digitCount 8 x := by
          rw [List.flatMap_singleton, length_minimalBytes]
        have hnext := @ih hvalues [x] (by omega)
        rw [hlength] at hnext
        rw [if_pos hfull, if_pos (show 8 < (OpenGroup.of group).used + _ from hfull),
          List.flatMap_cons, bind_assoc]
        refine (OpenGroup.emits_flush group).bind ?_
        simp only [hadd]
        exact hnext
      · have hfits := Nat.not_lt.mp hfull
        have hnext := @ih hvalues (group ++ [x]) (by rwa [length_data_append])
        rw [length_data_append] at hnext
        rw [if_neg hfull, if_neg (show ¬ 8 < (OpenGroup.of group).used + _ from hfull)]
        simp only [pure_bind, OpenGroup.add_of hfits]
        exact hnext

theorem emits_encode {values : List Nat} (h : ∀ x ∈ values, x < 2 ^ 32) :
    Emits (encodeOnto values) (encode values) () :=
  @emits_pushValues values h [] (Nat.zero_le _)

end GroupUnary

/-! ## Bits -/

namespace BitWriter

variable {w : BitWriter} {out : List UInt8} {bits : List Bool}

/-- The writer as a checked one. -/
def checked (w : BitWriter) : Checked.BitWriter := ⟨w.out, w.acc.toNat, w.filled⟩

/-- Behind the bytes `out` these bits are written. -/
def Holds (w : BitWriter) (out : List UInt8) (bits : List Bool) : Prop :=
  w.checked.Holds out bits

theorem drain_checked (w : BitWriter) :
    Checked.drain w.out w.acc.toNat w.filled = some w.drain.checked := by
  fun_induction drain w with
  | case1 w h ih =>
      have hhigh : Checked.shr 64 w.acc.toNat 8 = some (w.acc >>> 8).toNat := by
        rw [Checked.shr, if_pos (by decide), UInt64.toNat_shiftRight, Nat.shiftRight_eq_div_pow]
        rfl
      rw [Checked.drain, if_pos h, hhigh]
      exact ih
  | case2 w h =>
      rw [Checked.drain, if_neg h]
      rfl

/-- Bits are put above those of a word, unless they would be lost. -/
theorem toNat_or_shiftLeft (acc : UInt64) {y k : Nat} (hk : k < 64) (h : y * 2 ^ k < 2 ^ 64) :
    (acc ||| y.toUInt64 <<< k.toUInt64).toNat = acc.toNat ||| y * 2 ^ k := by
  have hy : y < 2 ^ 64 := Nat.lt_of_le_of_lt (Nat.le_mul_of_pos_right y (Nat.two_pow_pos k)) h
  have hshift : k.toUInt64.toNat = k := by
    rw [Nat.toUInt64, UInt64.toNat_ofNat', Nat.mod_eq_of_lt (by omega)]
  rw [UInt64.toNat_or, UInt64.toNat_shiftLeft, hshift, Nat.mod_eq_of_lt hk, Nat.toUInt64,
    UInt64.toNat_ofNat', Nat.mod_eq_of_lt hy, Nat.shiftLeft_eq, Nat.mod_eq_of_lt h]

/-- Where a checked writer writes a field, it writes the same. -/
theorem write_checked {y len : Nat} {after : Checked.BitWriter}
    (h : w.checked.write y len = some after) : (w.write y.toUInt64 len).checked = after := by
  rw [Checked.BitWriter.write, checked] at h
  obtain ⟨high, hhigh, h⟩ := Option.bind_eq_some_iff.mp h
  obtain ⟨filled, hfilled, h⟩ := Option.bind_eq_some_iff.mp h
  obtain ⟨⟨hshift, hfits⟩, hhigh⟩ := Option.ite_none_right_eq_some.mp hhigh
  obtain ⟨-, hfilled⟩ := Option.ite_none_right_eq_some.mp hfilled
  obtain rfl := Option.some.inj hhigh
  obtain rfl := Option.some.inj hfilled
  rw [← toNat_or_shiftLeft w.acc hshift hfits] at h
  have hdrain := drain_checked
    ⟨w.out, w.acc ||| y.toUInt64 <<< w.filled.toUInt64, w.filled + len⟩
  exact Option.some.inj (hdrain.symm.trans h)

theorem Holds.write (h : w.Holds out bits) {y len : Nat} (hy : y < 2 ^ len) (hlen : len ≤ 32) :
    (w.write y.toUInt64 len).Holds out (bits ++ lowFirst len y) := by
  obtain ⟨after, hwrite, hholds⟩ := Checked.BitWriter.Holds.write h hy hlen
  rwa [Holds, write_checked hwrite]

theorem Holds.writeTruncated (h : w.Holds out bits) {x range : Nat} (hx : x < range)
    (hrange : range ≤ 2 ^ 32) :
    (w.writeTruncated x range).Holds out (bits ++ truncatedBinary x range) := by
  by_cases hone : range ≤ 1
  · rwa [truncatedBinary, if_pos hone, List.append_nil, BitWriter.writeTruncated, if_pos hone]
  have hwidth : ceilLog2 range - 1 ≤ 32 := Nat.le_trans (Nat.sub_le _ _) (ceilLog2_le hrange)
  rw [BitWriter.writeTruncated, if_neg hone]
  simp only
  obtain ⟨hfirst, hlt, hword⟩ | ⟨hle, hlt, hword⟩ := truncatedBinary_eq (Nat.not_le.mp hone) hx
  · rw [if_pos hfirst, hword]
    exact h.write hlt hwidth
  · rw [if_neg (Nat.not_lt.mpr hle), hword, ← List.append_assoc]
    exact (h.write hlt hwidth).write (Nat.mod_lt _ (by decide)) (by decide)

theorem Holds.finish (h : w.Holds out bits) : w.finish = out ++ packBits bits := by
  rw [← Checked.BitWriter.Holds.finish h]
  rfl

end BitWriter

namespace Interpolative

/-- The sums are written as the bits of their bisection. -/
theorem holds_writeSums {sums : List Nat} {low high : Nat} (hhigh : high < 2 ^ 32)
    (hsorted : sums.Pairwise (· ≤ ·)) (hbounds : ∀ s ∈ sums, low ≤ s ∧ s ≤ high) :
    ∀ {w : BitWriter} {out : List UInt8} {bits : List Bool}, w.Holds out bits →
      (writeSums w sums low high).Holds out (bits ++ bisect sums low high) := by
  fun_induction bisect sums low high with
  | case1 sums low high h =>
      intro w out bits hw
      rwa [writeSums, if_pos h, List.append_nil]
  | case2 sums low high h half middle ihleft ihright =>
      intro w out bits hw
      have hne : sums.length ≠ 0 := fun h0 => h (.inl (List.length_eq_zero_iff.mp h0))
      have hhalf : half < sums.length := by omega
      have hmiddle : middle = sums[half] := by simp [middle, hhalf]
      obtain ⟨hleft, hright, hbelow, habove⟩ := pairwise_cut hsorted hhalf
      rw [← hmiddle] at hbelow habove
      obtain ⟨hlm, hmh⟩ := hbounds middle (hmiddle ▸ List.getElem_mem hhalf)
      have hsymbol := hw.writeTruncated (show middle - low < high - low + 1 by omega) (by omega)
      have hfirst := ihleft (by omega) hleft
        (fun s hs => ⟨(hbounds s (List.mem_of_mem_take hs)).1, hbelow s hs⟩) hsymbol
      have hsecond := ihright hhigh hright
        (fun s hs => ⟨habove s hs, (hbounds s (List.mem_of_mem_drop hs)).2⟩) hfirst
      rw [writeSums, if_neg h]
      rwa [List.append_assoc, List.append_assoc] at hsecond

/-- Behind the total the other sums of a run are appended, packed. -/
theorem emits_writeSums {values sums : List Nat} (hsums : runningSums 0 values = .ok sums)
    (hne : sums ≠ []) :
    Emits (modify fun buffer => (writeSums ⟨buffer, 0, 0⟩ sums.dropLast 0 (sums.getLastD 0)).finish)
      (packBits (bisect sums.dropLast 0 (sums.getLastD 0))) () := by
  intro buffer
  obtain ⟨hsorted, hlast, hfits⟩ := runningSums_others hsums hne
  have hstart : (BitWriter.mk buffer 0 0).Holds buffer [] :=
    ⟨[], [], by rw [List.append_nil]; rfl, rfl, by decide⟩
  have hholds := holds_writeSums hfits hsorted (fun s hs => ⟨Nat.zero_le s, hlast s hs⟩) hstart
  rw [Attempt.runFrom_modify, hholds.finish, List.nil_append]

/-- The bytes of a run are appended, or the run is refused and nothing is. -/
theorem runFrom_encodeOnto (values : List Nat) (hint : Option Nat) (buffer : List UInt8) :
    (encodeOnto values hint).runFrom buffer =
      match encode values hint with
      | .ok block => (.ok (), buffer ++ block)
      | .error e => (.error e, buffer) := by
  cases values with
  | nil => exact congrArg (Prod.mk (Except.ok ())) (List.append_nil buffer).symm
  | cons x values =>
      rw [encodeOnto, encode]
      simp only [List.isEmpty_cons, Bool.false_eq_true, if_false]
      rw [Attempt.runFrom_bind, Attempt.runFrom_lift]
      cases hsums : runningSums 0 (x :: values) with
      | error e => rfl
      | ok sums =>
          have hothers := emits_writeSums hsums
            (runningSums_ne_nil hsums (List.cons_ne_nil x values))
          cases hint with
          | none => exact ((Base128.terminated.emits_encodeOne _).bind hothers) buffer
          | some total =>
              by_cases hknown : total = sums.getLastD 0
              · subst hknown
                simp only [ne_eq, not_true_eq_false, if_false]
                rw [hothers buffer]
                simp only [bind, Except.bind, pure, Except.pure, if_true, List.nil_append]
              · simp only [ne_eq, hknown, not_false_eq_true, if_true, Attempt.runFrom_bind,
                  Attempt.runFrom_throw]
                simp only [bind, Except.bind, hknown, if_false]
                rfl

end Interpolative

/-! ## Blocks -/

namespace Codec

/-- The bytes of a block are appended, or the run is refused and nothing is. -/
theorem runFrom_encodeBlockOnto (codec : Codec) {values : List Nat}
    (hvalues : ∀ x ∈ values, x < 2 ^ 32) (buffer : List UInt8) :
    (codec.encodeBlockOnto values).runFrom buffer =
      match codec.encodeBlock values with
      | .ok block => (.ok (), buffer ++ block)
      | .error e => (.error e, buffer) := by
  cases codec with
  | vbyte => exact Base128.continued.emits_encode values buffer
  | groupVarint => exact GroupVarint.emits_encode hvalues buffer
  | groupUnary => exact GroupUnary.emits_encode hvalues buffer
  | streamVByte => exact StreamVByte.emits_encode hvalues buffer
  | interpolative => exact Interpolative.runFrom_encodeOnto values none buffer

/-- **A run is written behind what the buffer holds.**  The bytes of its block are appended,
or the run is refused and the buffer is left as it was. -/
theorem runFrom_encodeOnto (codec : Codec) {values : List Nat}
    (hvalues : ∀ x ∈ values, x < 2 ^ 32) (hint : Option Nat) (buffer : List UInt8) :
    (codec.encodeOnto values hint).runFrom buffer =
      match codec.encode values hint with
      | .ok block => (.ok (), buffer ++ block)
      | .error e => (.error e, buffer) := by
  rw [encodeOnto, encode]
  by_cases hempty : values.isEmpty = true
  · rw [if_pos hempty, if_pos hempty, Attempt.runFrom_pure]
    exact congrArg (Prod.mk (Except.ok ())) (List.append_nil buffer).symm
  rw [if_neg hempty, if_neg hempty]
  by_cases hcharge : codec.usesInterpolative values.length = true
  · rw [if_pos hcharge, if_pos hcharge]
    exact Interpolative.runFrom_encodeOnto values hint buffer
  · rw [if_neg hcharge, if_neg hcharge]
    exact codec.runFrom_encodeBlockOnto hvalues buffer

/-- **Blocks are read back.**  An accepted run adds a block to the buffer, and from that
block and whatever follows it exactly the run is read and exactly the block is taken.
What is refused is told by the run and the hint, and leaves the buffer as it was. -/
theorem encodeOnto_reads_back (codec : Codec) {values : List Nat}
    (hvalues : ∀ x ∈ values, x < 2 ^ 32) (hint : Option Nat) (buffer : List UInt8) :
    (∀ after, (codec.encodeOnto values hint).runFrom buffer = (.ok (), after) →
      ∃ block, after = buffer ++ block ∧ ∀ trailing,
        codec.decode (block ++ trailing) values.length hint = .ok (values, block.length)) ∧
    ((∃ e after, (codec.encodeOnto values hint).runFrom buffer = (.error e, after)) ↔
      values ≠ [] ∧ (codec = .interpolative ∨ values.length < codec.fallbackThreshold) ∧
        (2 ^ 32 - 1 < values.sum ∨ ∃ total, hint = some total ∧ total ≠ values.sum)) ∧
    ∀ e after, (codec.encodeOnto values hint).runFrom buffer = (.error e, after) →
      after = buffer := by
  rw [runFrom_encodeOnto codec hvalues]
  have hrefused := @encode_refused_iff codec values hint
  cases hrun : codec.encode values hint with
  | ok block =>
      simp only
      refine ⟨fun after hafter => ?_, ?_, fun e after hafter => ?_⟩
      · obtain ⟨-, rfl⟩ := Prod.mk.inj hafter
        exact ⟨block, rfl, decode_encode hvalues hrun⟩
      · constructor
        · rintro ⟨e, after, h⟩
          cases h
        · intro hbad
          obtain ⟨e, he⟩ := hrefused.mpr hbad
          rw [hrun] at he
          cases he
      · cases hafter
  | error e =>
      simp only
      refine ⟨fun after hafter => ?_, ?_, fun e' after hafter => ?_⟩
      · cases hafter
      · exact ⟨fun _ => hrefused.mp ⟨e, hrun⟩, fun _ => ⟨e, buffer, rfl⟩⟩
      · exact (Prod.mk.inj hafter).2.symm

/-- Eight values, one of them of 32 bits, in groups with a padded end. -/
theorem encodeOnto_reads_back_of_eight :
    (∀ x ∈ [0, 4294967295, 7, 300, 70000, 1, 2, 3], x < 2 ^ 32) ∧
    ∃ block, (encodeOnto .groupUnary [0, 4294967295, 7, 300, 70000, 1, 2, 3] none).runFrom [9] =
        (.ok (), [9] ++ block) ∧
      decode .groupUnary (block ++ [255]) 8 none =
        .ok ([0, 4294967295, 7, 300, 70000, 1, 2, 3], block.length) := by
  have hvalues : ∀ x ∈ [0, 4294967295, 7, 300, 70000, 1, 2, 3], x < 2 ^ 32 := by decide
  refine ⟨hvalues, ?_⟩
  obtain ⟨hread, hrefused, -⟩ := encodeOnto_reads_back .groupUnary hvalues none [9]
  cases hrun :
      (encodeOnto .groupUnary [0, 4294967295, 7, 300, 70000, 1, 2, 3] none).runFrom [9] with
  | mk answer after =>
      cases answer with
      | ok =>
          obtain ⟨block, rfl, hdecode⟩ := hread after hrun
          exact ⟨block, rfl, hdecode [255]⟩
      | error e => exact absurd (hrefused.mp ⟨e, after, hrun⟩).2.1 (by decide)

end Codec
end Postings
