import Postings.Proofs.Codec.CheckedBlocks
import Postings.Proofs.Codec.Symbols

/-!
# Symbols packed into bytes

A checked writer puts fields of bits above those that it holds back, as a number of 64 bits,
and moves whole bytes out; so fewer than eight bits are held back between two fields, and a
field has at most 32.  What it has written are the code words one after another, the last byte
filled up with zeros.  They are read back with the ranges that they were written with, and no
byte is taken behind them.
-/

namespace Postings

namespace Checked

/-! ## Writing -/

/-- What a checked writer of bits has written. -/
structure BitWriter where
  /-- The bytes that are out. -/
  out : List UInt8
  /-- The bits that are held back, as a number. -/
  acc : Nat
  /-- How many there are. -/
  filled : Nat

/-- Moves whole bytes out, as long as there are any. -/
def drain (out : List UInt8) (acc filled : Nat) : Option BitWriter :=
  if 8 ≤ filled then do
    let high ← shr 64 acc 8
    drain (out ++ [acc.toUInt8]) high (filled - 8)
  else some ⟨out, acc, filled⟩
termination_by filled

namespace BitWriter

/-- Writes a field of `len` bits. -/
def write (w : BitWriter) (bits len : Nat) : Option BitWriter := do
  let high ← shl 64 bits w.filled
  drain w.out (w.acc ||| high) (← add 32 w.filled len)

/-- Writes a symbol of `range` symbols: one field, or one field and a bit. -/
def writeTruncated (w : BitWriter) (x range : Nat) : Option BitWriter := do
  if range ≤ 1 then
    return w
  else
    let width := (← sub range 1).log2 + 1
    let short ← sub (← shl 64 1 width) range
    if x < short then
      w.write x (← sub width 1)
    else
      let excess ← sub x short
      let w ← w.write (← add 64 short (← shr 64 excess 1)) (← sub width 1)
      w.write (excess &&& 1) 1

/-- The bytes, with one for the bits that are held back. -/
def finish (w : BitWriter) : List UInt8 :=
  if 0 < w.filled then w.out ++ [w.acc.toUInt8] else w.out

/-- Behind the bytes `out` these bits are written: whole bytes of them are out, and fewer than
eight are held back. -/
def Holds (w : BitWriter) (out : List UInt8) (bits : List Bool) : Prop :=
  ∃ whole pending, w = ⟨out ++ whole, ofLowFirst pending, pending.length⟩ ∧
    bits = bitsOf whole ++ pending ∧ pending.length < 8

end BitWriter

/-- Writes symbols, each with its range, behind the bytes of a buffer. -/
def writeSymbols (out : List UInt8) (symbols : List (Nat × Nat)) : Option (List UInt8) := do
  let writer ← symbols.foldlM (fun w s => w.writeTruncated s.1 s.2) (BitWriter.mk out 0 0)
  return writer.finish

/-- Draining keeps the bits. -/
theorem drain_holds (out : List UInt8) :
    ∀ (whole : List UInt8) (pending : List Bool),
      ∃ w, drain (out ++ whole) (ofLowFirst pending) pending.length = some w ∧
        w.Holds out (bitsOf whole ++ pending) := by
  intro whole pending
  induction hlength : pending.length using Nat.strongRecOn generalizing whole pending with
  | _ n ih =>
      subst hlength
      rw [drain]
      by_cases henough : 8 ≤ pending.length
      · rw [if_pos henough]
        have hdrop : (pending.drop 8).length = pending.length - 8 := List.length_drop
        have hbyte : (ofLowFirst pending).toUInt8.toNat = ofLowFirst (pending.take 8) := by
          rw [ofLowFirst_take henough]
          exact UInt8.toNat_ofNat'
        have hbits : bitsOf (whole ++ [(ofLowFirst pending).toUInt8]) ++ pending.drop 8 =
            bitsOf whole ++ pending := by
          have hspell := lowFirst_ofLowFirst (pending.take 8)
          rw [List.length_take, Nat.min_eq_left henough] at hspell
          rw [bitsOf_append, bitsOf_cons, hbyte, hspell, List.append_assoc, List.append_assoc]
          exact congrArg _ (List.take_append_drop 8 pending)
        obtain ⟨w, hdrain, hholds⟩ := ih (pending.length - 8) (by omega)
          (whole ++ [(ofLowFirst pending).toUInt8]) (pending.drop 8) hdrop
        rw [hbits] at hholds
        rw [← List.append_assoc, ofLowFirst_drop henough] at hdrain
        refine ⟨w, ?_, hholds⟩
        rw [shr, if_pos (by decide)]
        exact hdrain
      · rw [if_neg henough]
        exact ⟨_, rfl, whole, pending, rfl, rfl, Nat.not_le.mp henough⟩

namespace BitWriter

variable {w : BitWriter} {out : List UInt8} {bits : List Bool}

/-- A field is put above the bits that are held back. -/
theorem Holds.write (h : w.Holds out bits) {y len : Nat} (hy : y < 2 ^ len) (hlen : len ≤ 32) :
    ∃ w', w.write y len = some w' ∧ w'.Holds out (bits ++ lowFirst len y) := by
  obtain ⟨whole, pending, rfl, rfl, hpending⟩ := h
  have hfits : y < 2 ^ 32 := Nat.lt_of_lt_of_le hy (Nat.pow_le_pow_right (by decide) hlen)
  have hacc : ofLowFirst (pending ++ lowFirst len y) =
      ofLowFirst pending ||| y * 2 ^ pending.length := by
    rw [or_above (ofLowFirst_lt pending), ofLowFirst_append, ofLowFirst_lowFirst,
      Nat.mod_eq_of_lt hy]
  have hfilled : add 32 pending.length len = some (pending ++ lowFirst len y).length := by
    rw [List.length_append, length_lowFirst]
    exact if_pos (by omega)
  rw [BitWriter.write]
  simp only [shl_eq hfits (show pending.length + 32 ≤ 64 by omega) (by decide), hfilled,
    Option.bind_eq_bind, Option.bind_some, ← hacc]
  rw [List.append_assoc]
  exact drain_holds out whole (pending ++ lowFirst len y)

theorem Holds.writeTruncated (h : w.Holds out bits) {x range : Nat} (hx : x < range)
    (hrange : range ≤ 2 ^ 32) :
    ∃ w', w.writeTruncated x range = some w' ∧
      w'.Holds out (bits ++ truncatedBinary x range) := by
  by_cases hone : range ≤ 1
  · rw [truncatedBinary, if_pos hone, List.append_nil, BitWriter.writeTruncated, if_pos hone]
    exact ⟨w, rfl, h⟩
  have hlong : 1 < range := Nat.not_le.mp hone
  have hlast : (range - 1).log2 + 1 = ceilLog2 range := by rw [ceilLog2, if_neg hone]
  have hwidth : ceilLog2 range ≤ 32 := ceilLog2_le hrange
  have hpos : 0 < ceilLog2 range := ceilLog2_pos hlong
  have hlimit : shl 64 1 (ceilLog2 range) = some (2 ^ ceilLog2 range) := by
    rw [shl_eq (show 1 < 2 ^ 1 by decide) (by omega) (by decide), Nat.one_mul]
  have hpred : sub range 1 = some (range - 1) := if_pos (by omega)
  have hshort : sub (2 ^ ceilLog2 range) range = some (2 ^ ceilLog2 range - range) :=
    if_pos (le_two_pow_ceilLog2 range)
  have hfield : sub (ceilLog2 range) 1 = some (ceilLog2 range - 1) := if_pos hpos
  rw [BitWriter.writeTruncated, if_neg hone]
  simp only [hpred, hlast, hlimit, hshort, hfield, Option.bind_eq_bind, Option.bind_some]
  obtain ⟨hfirst, hlt, hword⟩ | ⟨hle, hlt, hword⟩ := truncatedBinary_eq hlong hx
  · rw [if_pos hfirst, hword]
    exact h.write hlt (by omega)
  · have hpow : 2 ^ (ceilLog2 range - 1) ≤ 2 ^ 31 := Nat.pow_le_pow_right (by decide) (by omega)
    generalize 2 ^ ceilLog2 range - range = short at hle hlt hword ⊢
    have hexcess : sub x short = some (x - short) := if_pos hle
    have hhalf : shr 64 (x - short) 1 = some ((x - short) / 2) := rfl
    have hsum : add 64 short ((x - short) / 2) = some (short + (x - short) / 2) :=
      if_pos (by omega)
    have hbit : (x - short) % 2 < 2 ^ 1 := Nat.mod_lt _ (by decide)
    rw [if_neg (Nat.not_lt.mpr hle), hword, ← List.append_assoc]
    simp only [hexcess, hhalf, hsum, Option.bind_some, Nat.and_one_is_mod]
    obtain ⟨w', hwrite, hholds⟩ := h.write hlt (by omega)
    rw [hwrite]
    exact hholds.write hbit (by decide)

theorem Holds.writeSymbols {symbols : List (Nat × Nat)}
    (hsymbols : ∀ s ∈ symbols, s.1 < s.2 ∧ s.2 ≤ 2 ^ 32) :
    ∀ {w : BitWriter} {bits : List Bool}, w.Holds out bits →
      ∃ w', symbols.foldlM (fun w s => w.writeTruncated s.1 s.2) w = some w' ∧
        w'.Holds out (bits ++ symbolBits symbols) := by
  induction symbols with
  | nil => exact fun {w bits} h => ⟨w, rfl, by rwa [symbolBits, List.flatMap_nil, List.append_nil]⟩
  | cons s symbols ih =>
      intro w bits h
      obtain ⟨⟨hs, hrange⟩, hsymbols⟩ := List.forall_mem_cons.mp hsymbols
      obtain ⟨w', hwrite, hholds⟩ := h.writeTruncated hs hrange
      obtain ⟨w'', hrest, hholds'⟩ := ih hsymbols hholds
      rw [List.append_assoc] at hholds'
      refine ⟨w'', ?_, hholds'⟩
      rw [List.foldlM_cons, hwrite]
      exact hrest

end BitWriter

end Checked

/-! ## Symbols in bytes -/

/-- A whole byte is packed as it is. -/
theorem packBits_byte (byte : UInt8) (bits : List Bool) :
    packBits (lowFirst 8 byte.toNat ++ bits) = byte :: packBits bits := by
  have hbyte : (ofLowFirst (lowFirst 8 byte.toNat)).toUInt8 = byte := by
    rw [ofLowFirst_lowFirst, Nat.mod_eq_of_lt byte.toNat_lt]
    exact UInt8.ofNat_toNat
  obtain ⟨first, others, hword⟩ := List.exists_cons_of_length_pos
    (show 0 < (lowFirst 8 byte.toNat).length by rw [length_lowFirst]; decide)
  have hothers : others.length = 7 := by
    have hlength := congrArg List.length hword
    rw [length_lowFirst, List.length_cons] at hlength
    omega
  rw [hword] at hbyte ⊢
  rw [List.cons_append, packBits, List.take_left' hothers, List.drop_left' hothers, hbyte]

theorem packBits_bitsOf_append (bytes : List UInt8) (bits : List Bool) :
    packBits (bitsOf bytes ++ bits) = bytes ++ packBits bits := by
  induction bytes with
  | nil => rfl
  | cons byte bytes ih => rw [bitsOf_cons, List.append_assoc, packBits_byte, ih, List.cons_append]

namespace Checked

theorem BitWriter.Holds.finish {w : BitWriter} {out : List UInt8} {bits : List Bool}
    (h : w.Holds out bits) : w.finish = out ++ packBits bits := by
  obtain ⟨whole, pending, rfl, rfl, hpending⟩ := h
  rw [packBits_bitsOf_append, ← List.append_assoc, BitWriter.finish]
  cases pending with
  | nil =>
      rw [packBits, List.append_nil]
      rfl
  | cons b pending =>
      have hpos : 0 < (b :: pending).length := Nat.succ_pos _
      rw [List.length_cons] at hpending
      rw [if_pos hpos, packBits, List.take_of_length_le (by omega),
        List.drop_of_length_le (by omega), packBits]

/-- No arithmetic goes wrong on the way, and the bits of the symbols are packed. -/
theorem writeSymbols_eq (out : List UInt8) {symbols : List (Nat × Nat)}
    (h : ∀ s ∈ symbols, s.1 < s.2 ∧ s.2 ≤ 2 ^ 32) :
    writeSymbols out symbols = some (out ++ packBits (symbolBits symbols)) := by
  have hstart : (BitWriter.mk out 0 0).Holds out [] :=
    ⟨[], [], by rw [List.append_nil]; rfl, rfl, by decide⟩
  obtain ⟨w, hwrite, hholds⟩ := BitWriter.Holds.writeSymbols h hstart
  rw [writeSymbols, hwrite, ← List.nil_append (symbolBits symbols), ← hholds.finish]
  rfl

end Checked

/-- **Truncated binary is a prefix code, low bits first.**  The symbols that a writer has packed
behind the bytes of a buffer are read back with their ranges, whatever follows, and exactly
their bytes are taken.  Behind the first `b` bits of any bytes a reader answers with a symbol
of the range, and has gone over its code word; or it misses the byte after the last, and no
code word stands there.  No code word stands at the front of another. -/
theorem symbols_read_back {symbols : List (Nat × Nat)}
    (h : ∀ s ∈ symbols, s.1 < s.2 ∧ s.2 ≤ 2 ^ 32) (out rest : List UInt8) :
    (∃ bytes left, Checked.writeSymbols out symbols = some (out ++ bytes) ∧
      bytes = packBits (symbolBits symbols) ∧
      Attempt.runFrom ((symbols.map Prod.snd).mapM nextTruncatedBinary) (.start (bytes ++ rest)) =
        (.ok (symbols.map Prod.fst), left) ∧
      Checked.runFrom ((symbols.map Prod.snd).mapM Checked.nextTruncatedBinary)
        (.of (.start (bytes ++ rest))) = some (.ok (symbols.map Prod.fst), .of left) ∧
      left.taken = bytes.length ∧ left.rest = rest) ∧
    (∀ bytes : List UInt8, ∀ b range, b ≤ 8 * bytes.length → 0 < range → range ≤ 2 ^ 32 →
      ∃ answer left,
        Attempt.runFrom (nextTruncatedBinary range) (.after bytes b) = (answer, left) ∧
        Checked.runFrom (Checked.nextTruncatedBinary range) (.of (.after bytes b)) =
          some (answer, .of left) ∧
        ((∃ x < range, answer = .ok x ∧ truncatedBinary x range <+: (bitsOf bytes).drop b ∧
            left = .after bytes (b + (truncatedBinary x range).length)) ∨
          (answer = .error (.regionTooShort "interpolative"
              ((bytes.length + 1) * 8) (bytes.length * 8)) ∧
            ∀ x < range, ¬ truncatedBinary x range <+: (bitsOf bytes).drop b))) ∧
    ∀ x y range, x < range → y < range →
      truncatedBinary x range <+: truncatedBinary y range → x = y := by
  refine ⟨?_, fun bytes b range hb hpos hrange => ?_, fun x y range => eq_of_truncatedBinary_prefix⟩
  · have hpacked :
        symbolBits symbols <+: (bitsOf (packBits (symbolBits symbols) ++ rest)).drop 0 := by
      rw [List.drop_zero, bitsOf_append]
      exact (prefix_bitsOf_packBits _).trans (List.prefix_append _ _)
    have hrun := consumes_symbols (fun s hs => (h s hs).1) _ 0 (Nat.zero_le _) hpacked
    rw [← BitInput.start_eq_after, Nat.zero_add] at hrun
    have hchecked : Checked.Agrees Checked.BitReader.of
        ((symbols.map Prod.snd).mapM Checked.nextTruncatedBinary)
        ((symbols.map Prod.snd).mapM nextTruncatedBinary) :=
      .mapM (List.forall_mem_map.mpr fun s hs => Checked.nextTruncatedBinary_agrees (h s hs).2)
    have htaken : ((symbolBits symbols).length + 7) / 8 =
        (packBits (symbolBits symbols)).length := (length_packBits _).symm
    refine ⟨_, _, Checked.writeSymbols_eq out h, rfl, hrun, hchecked.run_eq hrun, htaken, ?_⟩
    rw [BitInput.after, htaken, List.drop_left]
  · have hchecked := Checked.nextTruncatedBinary_agrees hrange
    obtain ⟨x, hx, hword, hrun⟩ | ⟨hnone, left, hrun⟩ := runFrom_nextTruncatedBinary hpos hb
    · exact ⟨_, _, hrun, hchecked.run_eq hrun, .inl ⟨x, hx, rfl, hword, rfl⟩⟩
    · exact ⟨_, left, hrun, hchecked.run_eq hrun, .inr ⟨rfl, hnone⟩⟩

/-- Seven symbols, the first of which takes no bit; and two bits that are part of a code word. -/
theorem symbols_read_back_of_seven :
    (∀ s ∈ [(0, 1), (2, 3), (1, 3), (5, 6), (2 ^ 32 - 1, 2 ^ 32), (0, 2 ^ 32), (3, 5)],
      s.1 < s.2 ∧ s.2 ≤ 2 ^ 32) ∧
    Checked.writeSymbols [9]
        [(0, 1), (2, 3), (1, 3), (5, 6), (2 ^ 32 - 1, 2 ^ 32), (0, 2 ^ 32), (3, 5)] =
      some [9, 247, 255, 255, 255, 127, 0, 0, 0, 128, 1] ∧
    (∃ left, Attempt.runFrom ([1, 3, 3, 6, 2 ^ 32, 2 ^ 32, 5].mapM nextTruncatedBinary)
        (.start [247, 255, 255, 255, 127, 0, 0, 0, 128, 1, 171]) =
          (.ok [0, 2, 1, 5, 2 ^ 32 - 1, 0, 3], left) ∧ left.taken = 10 ∧ left.rest = [171]) ∧
    (Attempt.runFrom (nextTruncatedBinary 6) (.after [247] 6)).1 =
      .error (.regionTooShort "interpolative" 16 8) := by
  have hsymbols : ∀ s ∈ [(0, 1), (2, 3), (1, 3), (5, 6), (2 ^ 32 - 1, 2 ^ 32), (0, 2 ^ 32), (3, 5)],
      s.1 < s.2 ∧ s.2 ≤ 2 ^ 32 := by decide
  have hpacked : packBits (symbolBits
      [(0, 1), (2, 3), (1, 3), (5, 6), (2 ^ 32 - 1, 2 ^ 32), (0, 2 ^ 32), (3, 5)]) =
        [247, 255, 255, 255, 127, 0, 0, 0, 128, 1] := by decide +kernel
  obtain ⟨⟨bytes, left, hwrite, hbytes, hread, -, htaken, hrest⟩, hany, -⟩ :=
    symbols_read_back hsymbols [9] [171]
  rw [hpacked] at hbytes
  subst hbytes
  have hnone : ∀ x < 6, ¬ truncatedBinary x 6 <+: (bitsOf [247]).drop 6 := by decide +kernel
  obtain ⟨answer, left', hrun, -, ⟨x, hx, -, hword, -⟩ | ⟨rfl, -⟩⟩ :=
    hany [247] 6 6 (by decide) (by decide) (by decide)
  · exact absurd hword (hnone x hx)
  · exact ⟨hsymbols, hwrite, ⟨left, hread, htaken, hrest⟩, congrArg Prod.fst hrun⟩

end Postings
