import Postings.Proofs.Sequence.Follows

/-!
# What a format promises

A format keeps a list when a region that it wrote opens, wherever its bits are
found, to a cursor that follows the plain list.  Where they may be found is part
of the promise: a region is written at one position and read at the same position
with more bits behind it, or it is built on its own and read where it was appended
to something else.  The formats align what they write to bytes, so the two
positions must agree up to whole bytes.

How long a region gets is a promise of its own: a format that stores positions of
64 bits needs it of the formats that it nests.
-/

namespace Postings

open SequenceCursor

namespace Format

/-- A region opens to a cursor that follows the list, from its first position. -/
def Opens (f : Format) (v : BitString) (pos univ : Nat) (values : List Nat) (params : Params) :
    Prop :=
  ∃ c : f.Cursor, f.openAt v pos univ values.length params = .ok c ∧ Follows c ⟨values, univ, 0⟩

/-- Wherever the bits from `start` on are found, up to whole bytes, there a region
opens. -/
def OpensWhereCarried (f : Format) (bits : BitString) (start univ : Nat) (values : List Nat)
    (params : Params) : Prop :=
  ∀ v pos, pos % 8 = start % 8 → v.Carries pos bits start → f.Opens v pos univ values params

/-- The promise of a format, for given parameters and settings: every ascending list
is accepted and kept. -/
structure Faithful (f : Format) (params : Params) (config : BuildConfig) : Prop where
  accepts : ∀ {values univ}, Ascending values univ → ∀ before,
    ∃ bits, (f.write values univ params config).runFrom before = (.ok (), bits)
  grows : ∀ {values univ}, Ascending values univ → ∀ {before bits},
    (f.write values univ params config).runFrom before = (.ok (), bits) → bits.Extends before
  opens : ∀ {values univ}, Ascending values univ → ∀ {before bits},
    (f.write values univ params config).runFrom before = (.ok (), bits) →
      f.OpensWhereCarried bits before.size univ values params

/-- A format takes at most `rate` bits for each element of the universe. -/
structure GrowsWithin (f : Format) (params : Params) (config : BuildConfig) (rate : Nat) :
    Prop where
  size_le : ∀ {values univ}, Ascending values univ → ∀ {before bits},
    (f.write values univ params config).runFrom before = (.ok (), bits) →
      bits.size ≤ before.size + rate * univ

theorem GrowsWithin.mono {f : Format} {params : Params} {config : BuildConfig} {rate faster : Nat}
    (h : f.GrowsWithin params config rate) (hle : rate ≤ faster) :
    f.GrowsWithin params config faster where
  size_le hvalues _ _ hwrite :=
    (h.size_le hvalues hwrite).trans (Nat.add_le_add_left (Nat.mul_le_mul_right _ hle) _)

/-- A format takes exactly so many bits for a list, from a byte boundary to another. -/
structure Measures (f : Format) (params : Params) (config : BuildConfig)
    (size : (values : List Nat) → (univ : Nat) → Nat) : Prop where
  size_eq : ∀ {values univ}, Ascending values univ → ∀ {before bits}, before.size % 8 = 0 →
    (f.write values univ params config).runFrom before = (.ok (), bits) →
      bits.size = before.size + size values univ
  whole : ∀ values univ, size values univ % 8 = 0

end Format

/-- The promise of a format of tables: every list in order is accepted and kept, and
the region ends where it is said to. -/
structure TableFormat.Faithful (t : TableFormat) (params : Params) : Prop where
  accepts : ∀ {values univ}, NonDecreasing values univ → ∀ config before,
    ∃ bits, (t.write values univ params config).runFrom before = (.ok (), bits)
  grows : ∀ {values univ}, NonDecreasing values univ → ∀ {config before bits},
    (t.write values univ params config).runFrom before = (.ok (), bits) → bits.Extends before
  ends : ∀ {values univ}, NonDecreasing values univ → ∀ {config before bits},
    (t.write values univ params config).runFrom before = (.ok (), bits) →
      ∀ pos, pos % 8 = before.size % 8 →
        t.regionEnd pos univ values.length params = pos + (bits.size - before.size)
  opens : ∀ {values univ}, NonDecreasing values univ → ∀ {config before bits},
    (t.write values univ params config).runFrom before = (.ok (), bits) →
      t.OpensWhereCarried bits before.size univ values params

/-- A format of tables takes at most `rate` bits for each element of the universe and
each value. -/
structure TableFormat.GrowsWithin (t : TableFormat) (params : Params) (rate : Nat) : Prop where
  size_le : ∀ {values univ}, NonDecreasing values univ → ∀ {config before bits},
    (t.write values univ params config).runFrom before = (.ok (), bits) →
      bits.size ≤ before.size + rate * (univ + values.length)

theorem TableFormat.GrowsWithin.mono {t : TableFormat} {params : Params} {rate faster : Nat}
    (h : t.GrowsWithin params rate) (hle : rate ≤ faster) : t.GrowsWithin params faster where
  size_le hvalues _ _ _ hwrite :=
    (h.size_le hvalues hwrite).trans (Nat.add_le_add_left (Nat.mul_le_mul_right _ hle) _)

theorem TableFormat.GrowsWithin.format {t : TableFormat} {params : Params} {rate : Nat}
    (h : t.GrowsWithin params rate) (config : BuildConfig) :
    t.toFormat.GrowsWithin params config (2 * rate) := by
  refine ⟨fun {values univ} hvalues before bits hwrite => ?_⟩
  calc bits.size
      ≤ before.size + rate * (univ + values.length) := h.size_le hvalues.nonDecreasing hwrite
    _ ≤ before.size + rate * (2 * univ) := by
        have := hvalues.length_le
        exact Nat.add_le_add_left (Nat.mul_le_mul_left rate (by omega)) _
    _ = before.size + 2 * rate * univ := by rw [← Nat.mul_assoc, Nat.mul_comm rate]

/-- A format of tables keeps ascending lists as a format. -/
theorem TableFormat.Faithful.format {t : TableFormat} {params : Params} (h : t.Faithful params)
    (config : BuildConfig) : t.toFormat.Faithful params config where
  accepts hvalues before := h.accepts hvalues.nonDecreasing config before
  grows hvalues := h.grows hvalues.nonDecreasing
  opens hvalues := h.opens hvalues.nonDecreasing

end Postings
