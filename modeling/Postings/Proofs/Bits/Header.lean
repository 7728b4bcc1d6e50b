import Postings.Proofs.Bits.Universal

/-!
# Headers

A header is a row of fields: numbers of a given width, numbers in a universal code, and zeros
up to a multiple of a power of two.  A reader is told what kinds of fields there are, and
issues one reading for each.

Every field begins where the one before it ends, and what follows a field does not matter for
reading it, so a header that is written to any bits and followed by any others is read back
(`header_round_trip`).  The same goes for words: no write faults, and no reading does.
-/

namespace Postings

/-! ## Fields -/

/-- How a number is written in a header. -/
inductive FieldKind where
  /-- In as many bits. -/
  | bits (len : Nat)
  | gamma
  | gammaPositive
  | delta
  /-- Not at all: there are zeros up to the next multiple. -/
  | padding (alignment : Nat)
  deriving DecidableEq, Repr

namespace FieldKind

/-- The numbers that can be written so; padding stands for zero. -/
def Fits : FieldKind → Nat → Prop
  | bits len, value => len ≤ 64 ∧ value < 2 ^ len
  | gamma, value => value < 2 ^ 64 - 1
  | gammaPositive, value => 0 < value ∧ value < 2 ^ 64
  | delta, value => value < 2 ^ 64 - 1
  | padding alignment, value => alignment.isPowerOfTwo ∧ value = 0

/-- Appends a field. -/
def append (w : BitString) : FieldKind → Nat → BitString
  | bits len, value => w.appendBits value len
  | gamma, value => w.appendGamma value
  | gammaPositive, value => w.appendGammaPositive value
  | delta, value => w.appendDelta value
  | padding alignment, _ => w.padTo alignment

/-- Appends a field to words. -/
def pack (w : Packed) : FieldKind → Nat → Option Packed
  | bits len, value => w.appendBits value.toUInt64 len
  | gamma, value => w.appendGamma value.toUInt64
  | gammaPositive, value => w.appendGammaPositive value.toUInt64
  | delta, value => w.appendDelta value.toUInt64
  | padding alignment, _ => w.padTo alignment

/-- Reads a field. -/
def read (v : BitString) : FieldKind → Reading Nat
  | bits len => v.take len
  | gamma => v.gamma
  | gammaPositive => v.gammaPositive
  | delta => v.delta
  | padding alignment => do
      v.align alignment
      return 0

/-- Reads a field from words. -/
def readWords (v : Packed) : FieldKind → Checked Nat Nat
  | bits len => v.take len
  | gamma => v.gamma
  | gammaPositive => v.gammaPositive
  | delta => v.delta
  | padding alignment => do
      v.align alignment
      return 0

variable {kind : FieldKind} {value : Nat}

theorem append_extends (kind : FieldKind) (w : BitString) (value : Nat) :
    (kind.append w value).Extends w := by
  cases kind with
  | bits len => exact BitString.appendBits_extends _ _ _
  | gamma => exact BitString.appendGamma_extends _ _
  | gammaPositive => exact BitString.appendGamma_extends _ _
  | delta => exact BitString.appendDelta_extends _ _
  | padding alignment => exact BitString.padTo_extends _ _

/-- A field that is followed by anything is read, up to its end. -/
theorem runFrom_read {v w : BitString} (h : kind.Fits value)
    (hv : v.Extends (kind.append w value)) :
    (kind.read v).runFrom w.size = (.ok value, (kind.append w value).size) := by
  have hle := (append_extends kind w value).size_le
  have hcarries := BitString.Carries.of_extends hv hle
  have hend : w.size + ((kind.append w value).size - w.size) = (kind.append w value).size := by
    omega
  cases kind with
  | bits len =>
      rw [read, BitString.runFrom_take hcarries h.1 h.2, append, BitString.size_appendBits,
        Nat.min_eq_left h.1]
  | gamma =>
      rw [← hend]
      exact BitString.runFrom_gamma hcarries (Nat.add_lt_of_lt_sub h)
  | gammaPositive =>
      rw [← hend]
      exact BitString.runFrom_gammaPositive hcarries h.1 h.2
  | delta =>
      rw [← hend]
      exact BitString.runFrom_delta hcarries (Nat.add_lt_of_lt_sub h)
  | padding alignment =>
      obtain ⟨-, rfl⟩ := h
      have hfits := hv.size_le
      rw [append, BitString.size_padTo] at hfits ⊢
      simp only [read, BitString.align, BitString.skip, BitString.checkRange, if_pos hfits,
        Attempt.runFrom_bind, Attempt.runFrom_get, Attempt.runFrom_lift, Attempt.runFrom_set,
        Attempt.runFrom_pure]

/-- On the words of a bit string a field is appended without a fault. -/
theorem pack_eq (h : kind.Fits value) (w : BitString) :
    kind.pack (Packed.ofBitString w) value =
      some (Packed.ofBitString (kind.append w value)) := by
  -- Whatever spells the list that is left are the words of the bit string with that list.
  have hleft : ∀ {bits}, (∃ u, kind.pack (Packed.ofBitString w) value = some u ∧ u.Spells bits) →
      (kind.append w value).toList = bits →
      kind.pack (Packed.ofBitString w) value = some (Packed.ofBitString (kind.append w value)) := by
    rintro bits ⟨u, hu, hspells⟩ hbits
    rw [hu, hspells.eq_of_toList hbits]
    rfl
  have hstart := Packed.Spells.of_bitString w
  have hword : ∀ {x : Nat}, x < 2 ^ 64 → x.toUInt64.toNat = x := UInt64.toNat_ofNat_of_lt'
  cases kind with
  | bits len =>
      have hvalue := hword (Nat.lt_of_lt_of_le h.2 (Nat.pow_le_pow_right (by decide) h.1))
      refine hleft (hstart.appendBits value.toUInt64 h.1 (by rw [hvalue]; exact h.2)) ?_
      rw [hvalue]
      exact BitString.toList_appendBits _ _ h.1
  | gamma =>
      have hlt : value + 1 < 2 ^ 64 := Nat.add_lt_of_lt_sub h
      have hvalue := hword (Nat.lt_of_succ_lt hlt)
      refine hleft (hstart.appendGamma (by rwa [hvalue])) ?_
      rw [hvalue]
      exact BitString.toList_appendGamma w hlt
  | gammaPositive =>
      have hvalue := hword h.2
      refine hleft (hstart.appendGammaPositive (by rw [hvalue]; exact h.1)) ?_
      rw [hvalue]
      have hlt : value - 1 + 1 < 2 ^ 64 := by
        rw [Nat.sub_add_cancel h.1]
        exact h.2
      exact BitString.toList_appendGamma w hlt
  | delta =>
      have hlt : value + 1 < 2 ^ 64 := Nat.add_lt_of_lt_sub h
      have hvalue := hword (Nat.lt_of_succ_lt hlt)
      refine hleft (hstart.appendDelta (by rwa [hvalue])) ?_
      rw [hvalue]
      exact BitString.toList_appendDelta w hlt
  | padding alignment =>
      obtain ⟨⟨k, rfl⟩, -⟩ := h
      refine hleft (hstart.padTo ⟨k, rfl⟩) ?_
      rw [append, BitString.toList_padTo, BitString.padding_eq _ (Nat.two_pow_pos k),
        BitString.length_toList]

/-- A field is read from words as it is read. -/
theorem readWords_agrees (h : kind.Fits value) (v : BitString) :
    Checked.Agrees id (kind.readWords (Packed.ofBitString v)) (kind.read v) := by
  cases kind with
  | bits len => exact Packed.take_agrees v h.1
  | gamma => exact Packed.gamma_agrees v
  | gammaPositive => exact Packed.gammaPositive_agrees v
  | delta => exact Packed.delta_agrees v
  | padding alignment =>
      exact (Packed.align_agrees v h.1).bind (.any _) fun _ _ => .pure 0

end FieldKind

/-! ## Headers -/

/-- The fields of a header, each with the number that it holds. -/
abbrev Header := List (FieldKind × Nat)

namespace Header

/-- Every number can be written as its field wants it. -/
def Fits (header : Header) : Prop :=
  ∀ field ∈ header, field.1.Fits field.2

/-- The kinds of fields that there are. -/
def kinds (header : Header) : List FieldKind :=
  header.map Prod.fst

/-- The numbers that the fields hold. -/
def values (header : Header) : List Nat :=
  header.map Prod.snd

/-- Appends the fields one after another. -/
def append (w : BitString) (header : Header) : BitString :=
  header.foldl (fun w field => field.1.append w field.2) w

/-- Appends the fields to words. -/
def pack (w : Packed) (header : Header) : Option Packed :=
  header.foldlM (fun w field => field.1.pack w field.2) w

/-- Reads fields one after another. -/
def read (v : BitString) : List FieldKind → Reading (List Nat)
  | [] => return []
  | kind :: kinds => do
      let value ← kind.read v
      return value :: (← read v kinds)

/-- Reads fields from words. -/
def readWords (v : Packed) : List FieldKind → Checked Nat (List Nat)
  | [] => return []
  | kind :: kinds => do
      let value ← kind.readWords v
      return value :: (← readWords v kinds)

theorem append_extends (w : BitString) (header : Header) : (append w header).Extends w := by
  induction header generalizing w with
  | nil => exact .refl w
  | cons field header ih => exact (ih _).trans (field.1.append_extends w field.2)

/-- Each field is read where the one before it ends. -/
theorem runFrom_read {header : Header} (h : header.Fits) {v w : BitString}
    (hv : v.Extends (append w header)) :
    (read v header.kinds).runFrom w.size = (.ok header.values, (append w header).size) := by
  induction header generalizing w with
  | nil => rfl
  | cons field header ih =>
      obtain ⟨hfield, hrest⟩ := List.forall_mem_cons.mp h
      have hfirst := FieldKind.runFrom_read hfield (hv.trans (append_extends _ header))
      have hothers := ih hrest hv
      refine Attempt.runFrom_bind_ok_iff.mpr ⟨_, _, hfirst, ?_⟩
      exact Attempt.runFrom_bind_ok_iff.mpr ⟨_, _, hothers, rfl⟩

theorem pack_eq {header : Header} (h : header.Fits) (w : BitString) :
    pack (Packed.ofBitString w) header = some (Packed.ofBitString (append w header)) := by
  induction header generalizing w with
  | nil => rfl
  | cons field header ih =>
      obtain ⟨hfield, hrest⟩ := List.forall_mem_cons.mp h
      rw [pack, List.foldlM_cons, FieldKind.pack_eq hfield]
      exact ih hrest _

theorem readWords_agrees {header : Header} (h : header.Fits) (v : BitString) :
    Checked.Agrees id (readWords (Packed.ofBitString v) header.kinds) (read v header.kinds) := by
  induction header with
  | nil => exact .pure []
  | cons field header ih =>
      obtain ⟨hfield, hrest⟩ := List.forall_mem_cons.mp h
      exact (FieldKind.readWords_agrees hfield v).bind (.any _) fun value _ =>
        (ih hrest).bind (.any _) fun values _ => .pure _

end Header

/-- A header that fits is read back, behind any bits and before any others: every reading
succeeds, the values are those that were written, and the reader stops where the last field
ends.  On words the same is done without a fault. -/
theorem header_round_trip (start rest : BitString) {header : Header} (h : header.Fits) :
    let written := header.append start
    let words := Packed.ofBitString (written ++ rest)
    (Header.read (written ++ rest) header.kinds).runFrom start.size =
        (.ok header.values, written.size) ∧
      (do (← header.pack (Packed.ofBitString start)).append (Packed.ofBitString rest)) =
        some words ∧
      (Header.readWords words header.kinds).runFrom start.size =
        some (.ok header.values, written.size) := by
  intro written words
  have hread := Header.runFrom_read h (BitString.append_extends written rest)
  obtain ⟨all, happend, hspells⟩ :=
    (Packed.Spells.of_bitString written).append (Packed.Spells.of_bitString rest)
  refine ⟨hread, ?_, (Header.readWords_agrees h _).run_eq hread⟩
  rw [Header.pack_eq h start]
  refine happend.trans (congrArg some ?_)
  exact hspells.eq_of_toList (BitString.toList_append written rest)

/-- The largest numbers of every code, a full word and padding, from the third bit on. -/
theorem header_round_trip_of_largest :
    let header : Header := [(.gamma, 2 ^ 64 - 2), (.bits 64, 2 ^ 64 - 1), (.padding 8, 0),
      (.gammaPositive, 2 ^ 64 - 1), (.bits 0, 0), (.delta, 2 ^ 64 - 2), (.delta, 0)]
    let start := BitString.empty.appendBits 5 3
    header.Fits ∧ ∀ rest,
      (Header.read (header.append start ++ rest) header.kinds).runFrom 3 =
        (.ok header.values, 404) := by
  intro header start
  have hfits : header.Fits := by
    simp only [header, Header.Fits, List.forall_mem_cons, List.not_mem_nil, FieldKind.Fits]
    refine ⟨by decide, by decide, ⟨⟨3, rfl⟩, trivial⟩, by decide, by decide, by decide,
      by decide, ?_⟩
    simp
  have hsize : (header.append start).size = 404 := by decide
  refine ⟨hfits, fun rest => ?_⟩
  rw [← hsize]
  exact (header_round_trip start rest hfits).1

end Postings
