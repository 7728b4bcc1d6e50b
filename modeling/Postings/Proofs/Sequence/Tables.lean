import Postings.Proofs.Sequence.EliasFano.Walk
import Postings.Proofs.Sequence.FixedWidth

/-!
# Either table will do

The upper bounds of partitions are a list in order, and two formats keep such lists:
Elias-Fano, which is short, and fixed width, which reads any value at once.  Neither
knows of the other, and what they do for a bound has nothing in common: one walks
from the boundary of a bucket, the other halves a range.  Whoever looks a partition
up takes the position that comes out, so the two may only be exchanged when they
agree on every one of them.

Both follow the plain list, and two cursors that follow one list cannot be told
apart (`Follows.interchangeable`).  What is left to show is that both keep the same
lists.  Fixed width keeps values of 32 bits below any universe, so Elias-Fano has to
do without a bound on the universe too: that a list is short enough bounds its high
bits (`EliasFano.Layout.Fits.of_length`).
-/

namespace Postings

open BitString

/-! ## Cursors that give the same answers -/

namespace SequenceCursor

variable {γ δ : Type} [SequenceCursor γ] [SequenceCursor δ]

/-- Everything that can be asked of two cursors is answered alike. -/
structure Alike (c : γ) (d : δ) : Prop where
  size_eq : size c = size d
  position_eq : position c = position d
  value_eq : value c = value d
  prevValue_eq : prevValue c = prevValue d

/-- Two cursors that answer as one plain cursor does answer alike. -/
theorem Agrees.alike {c : γ} {d : δ} {p : Plain} (hc : Agrees c p) (hd : Agrees d p) :
    Alike c d where
  size_eq := hc.size_eq.trans hd.size_eq.symm
  position_eq := hc.position_eq.trans hd.position_eq.symm
  value_eq := hc.value_eq.trans hd.value_eq.symm
  prevValue_eq := hc.prevValue_eq.trans hd.prevValue_eq.symm

/-- Every run of moves that is allowed over a list succeeds from both cursors and
leads to the same answers. -/
def Interchangeable (c : γ) (d : δ) (p : Plain) : Prop :=
  ∀ moves, Move.AllAllowed p moves →
    ∃ c' d', run c moves = .ok c' ∧ run d moves = .ok d' ∧ Alike c' d'

/-- Two cursors that follow one list cannot be told apart. -/
theorem Follows.interchangeable {c : γ} {d : δ} {p : Plain} (hc : Follows c p) (hd : Follows d p) :
    Interchangeable c d p := by
  intro moves hmoves
  obtain ⟨c', hrunc, hagreec⟩ := hc moves hmoves
  obtain ⟨d', hrund, hagreed⟩ := hd moves hmoves
  exact ⟨c', d', hrunc, hrund, hagreec.alike hagreed⟩

end SequenceCursor

open SequenceCursor

/-! ## Lists that both tables keep -/

/-- A table takes a list behind given bits: it leaves those alone, and its region ends
where it says. -/
structure TableFormat.Writes (t : TableFormat) (params : Params) (config : BuildConfig)
    (values : List Nat) (univ : Nat) (before bits : BitString) : Prop where
  runFrom_eq : (t.write values univ params config).runFrom before = (.ok (), bits)
  grows : bits.Extends before
  size_eq : bits.size = t.regionEnd before.size univ values.length params

/-- A list in order of values of 32 bits, below a universe of 64 bits.  No list of words
in memory is as long as `2 ^ 62`. -/
structure Bounds (values : List Nat) (univ : Nat) : Prop where
  ne_nil : values ≠ []
  sorted : values.Pairwise (· ≤ ·)
  below : ∀ v ∈ values, v < univ
  fits : ∀ v ∈ values, v < 2 ^ FixedWidth.width
  univ_lt : univ < 2 ^ 64
  length_lt : values.length < 2 ^ 62

section Kept

variable {values : List Nat} {univ : Nat} (params : Params) (config : BuildConfig)
  (before : BitString)

theorem EliasFano.keeps_bounds (h : Bounds values univ) :
    ∃ bits, format.Writes params config values univ before bits ∧
      format.OpensWhereCarried bits before.size univ values params := by
  have hfits : (Layout.mk before.size univ values.length params).Fits values :=
    .of_length rfl h.ne_nil h.sorted h.below h.univ_lt h.length_lt
  have hwrite := runFrom_write params config before
    (checkValues_eq_ok.mpr ⟨h.ne_nil, h.sorted, h.below⟩)
  exact ⟨_, ⟨hwrite, written_extends hfits rfl, size_written hfits rfl⟩, opens_of_fits hfits rfl⟩

theorem FixedWidth.keeps_bounds (h : Bounds values univ) :
    ∃ bits, format.Writes params config values univ before bits ∧
      format.OpensWhereCarried bits before.size univ values params := by
  have hwrite := runFrom_write params config before
    (checkValues_eq_ok.mpr ⟨h.ne_nil, h.sorted, h.below, h.fits⟩)
  have hgrows : ((before.padTo 8).appendFields width values).Extends before :=
    (appendFields_extends _ _ _).trans (padTo_extends _ _)
  have hsize : ((before.padTo 8).appendFields width values).size =
      regionEnd before.size univ values.length params := by
    rw [size_appendFields _ width_le, size_padTo_eight, regionEnd]
  exact ⟨_, ⟨hwrite, hgrows, hsize⟩, opens_of_fits params before h.ne_nil h.sorted h.fits⟩

end Kept

/-- **The two formats of tables are interchangeable**: of any list in order whose last value
is a docid, both keep what can be asked of it, each in a region that ends where it says, and
no run of moves tells their cursors apart. -/
theorem tables_interchangeable (params : Params) (config : BuildConfig) {values : List Nat}
    {univ : Nat} (hne : values ≠ []) (hsorted : values.Pairwise (· ≤ ·))
    (hlast : values.getLast hne < univ) (hdocid : values.getLast hne ≤ 2 ^ 32 - 1)
    -- A universe is a word, and a list of words in memory is not that long.
    (huniv : univ < 2 ^ 64) (hlength : values.length < 2 ^ 62) (before : BitString) :
    ∃ short wide : BitString,
      EliasFano.format.Writes params config values univ before short ∧
      FixedWidth.format.Writes params config values univ before wide ∧
      ∀ v w : BitString, v.Extends short → w.Extends wide →
        ∃ c d, EliasFano.openAt v before.size univ values.length params = .ok c ∧
          FixedWidth.openAt w before.size univ values.length params = .ok d ∧
          Interchangeable c d ⟨values, univ, 0⟩ := by
  have hvalues : Bounds values univ :=
    ⟨hne, hsorted, (getLast_lt_iff hsorted hne univ).mp hlast,
      (getLast_lt_iff hsorted hne _).mp (Nat.lt_of_le_of_lt hdocid (by decide)), huniv, hlength⟩
  obtain ⟨short, hshort, hopensShort⟩ := EliasFano.keeps_bounds params config before hvalues
  obtain ⟨wide, hwide, hopensWide⟩ := FixedWidth.keeps_bounds params config before hvalues
  refine ⟨short, wide, hshort, hwide, fun v w hv hw => ?_⟩
  obtain ⟨c, hc, hfollowsc⟩ := hopensShort v _ rfl (.of_extends hv hshort.grows.size_le)
  obtain ⟨d, hd, hfollowsd⟩ := hopensWide w _ rfl (.of_extends hw hwide.grows.size_le)
  exact ⟨c, d, hc, hd, hfollowsc.interchangeable hfollowsd⟩

theorem tables_interchangeable_of_four :
    let before := BitString.empty.appendBits 5 3
    let values := [0, 5, 5, 2 ^ 32 - 1]
    let moves : List Move := [.nextGeq 5, .next, .nextGeq (2 ^ 39), .moveTo 1, .nextGeq 6]
    values ≠ [] ∧ values.Pairwise (· ≤ ·) ∧ values.getLast (List.cons_ne_nil _ _) < 2 ^ 40 ∧
    values.getLast (List.cons_ne_nil _ _) ≤ 2 ^ 32 - 1 ∧ Move.AllAllowed ⟨values, 2 ^ 40, 0⟩ moves ∧
    ∃ short wide c d,
      EliasFano.format.Writes {} {} values (2 ^ 40) before short ∧
      FixedWidth.format.Writes {} {} values (2 ^ 40) before wide ∧ wide.size = 136 ∧
      EliasFano.openAt short before.size (2 ^ 40) 4 {} = .ok c ∧
      FixedWidth.openAt wide before.size (2 ^ 40) 4 {} = .ok d ∧
      ∃ c' d', run c moves = .ok c' ∧ run d moves = .ok d' ∧ Alike c' d' := by
  intro before values moves
  have hsorted : values.Pairwise (· ≤ ·) := by decide
  have hbelow : values.getLast (List.cons_ne_nil _ _) < 2 ^ 40 := by decide
  have hdocid : values.getLast (List.cons_ne_nil _ _) ≤ 2 ^ 32 - 1 := by decide
  have hmoves : Move.AllAllowed ⟨values, 2 ^ 40, 0⟩ moves := by decide
  obtain ⟨short, wide, hshort, hwide, hopens⟩ := tables_interchangeable {} {}
    (List.cons_ne_nil _ _) hsorted hbelow hdocid (by decide) (by decide) before
  obtain ⟨c, d, hc, hd, hsame⟩ := hopens short wide (.refl short) (.refl wide)
  exact ⟨List.cons_ne_nil _ _, hsorted, hbelow, hdocid, hmoves, short, wide, c, d, hshort, hwide,
    hwide.size_eq.trans (by decide), hc, hd, hsame moves hmoves⟩

end Postings
