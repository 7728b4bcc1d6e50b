import Postings.Proofs.Codec.Runs
import Postings.Proofs.Sequence.GapBlocks.Cut
import Postings.Proofs.Sequence.Scan

/-!
# Two readers of the same blocks

A region of blocks is decoded at once or scanned by a cursor.  Both take the same bytes
for each block, so one of them comes to a refusal where the other does.  They add the
gaps up in different widths: decoding at once keeps every value as it is, and a cursor
keeps what 32 bits hold of it, also of the value that the next block goes on from.
Cutting the values at the end is the same, so a scan shows the values that are decoded at
once in 32 bits.  The two agree on every region whose values fit that width, and on no
other.
-/

namespace Postings
namespace GapBlocks

open SequenceCursor

/-! ## Values in 32 bits -/

@[simp] theorem length_valuesOf (prev : Option Nat) (gaps : List Nat) :
    (valuesOf prev gaps).length = gaps.length := by
  induction gaps generalizing prev with
  | nil => cases prev <;> rfl
  | cons gap gaps ih => cases prev <;> exact congrArg (· + 1) (ih _)

/-- Values in 32 bits go by what 32 bits hold of the value before them. -/
theorem map_mod_valuesOf_some {p q : Nat} (h : p % 2 ^ 32 = q % 2 ^ 32) (gaps : List Nat) :
    (valuesOf (some p) gaps).map (· % 2 ^ 32) = (valuesOf (some q) gaps).map (· % 2 ^ 32) := by
  induction gaps generalizing p q with
  | nil => rfl
  | cons gap gaps ih =>
      have hnext : (p + gap + 1) % 2 ^ 32 = (q + gap + 1) % 2 ^ 32 := by omega
      rw [valuesOf, valuesOf, List.map_cons, List.map_cons, hnext, ih hnext]

theorem map_mod_valuesOf (prev : Option Nat) (gaps : List Nat) :
    (valuesOf (prev.map (· % 2 ^ 32)) gaps).map (· % 2 ^ 32) =
      (valuesOf prev gaps).map (· % 2 ^ 32) := by
  cases prev with
  | none => rfl
  | some p => exact map_mod_valuesOf_some (Nat.mod_mod _ _) gaps

/-- Cutting values to 32 bits changes none of them exactly if all of them fit. -/
theorem map_mod_eq_self_iff {values : List Nat} :
    values.map (· % 2 ^ 32) = values ↔ ∀ v ∈ values, v < 2 ^ 32 := by
  induction values with
  | nil => exact ⟨fun _ v hv => absurd hv List.not_mem_nil, fun _ => rfl⟩
  | cons v values ih =>
      rw [List.map_cons, List.cons.injEq, ih, List.forall_mem_cons]
      exact and_congr_left fun _ => by omega

/-! ## Scanning -/

/-- What a scan collects, in two parts. -/
theorem collect_add {γ : Type} [SequenceCursor γ] (first more : Nat) (c : γ) :
    collect (first + 1 + more) c = (do
      let (values, c) ← collect first c
      let (others, last) ← collect more (← next c)
      return (values ++ others, last)) := by
  induction first generalizing c with
  | zero =>
      rw [Nat.zero_add, Nat.add_comm 1 more]
      simp only [collect, pure_bind]
      rfl
  | succ first ih =>
      rw [show first + 1 + 1 + more = first + 1 + more + 1 by omega, collect, collect]
      simp only [ih, bind_assoc, pure_bind]
      rfl

namespace Cursor

variable {c : Cursor} {n univ : Nat}

/-- Within the decoded block a step is one to the right. -/
theorem next_standAt {i : Nat} (hi : i + 1 < c.block.length)
    (hfits : c.blockStart + c.block.length ≤ c.n) :
    (c.standAt i).next = .ok (c.standAt (i + 1)) := by
  have hin : (c.standAt i).position + 1 ≠ (c.standAt i).n := by
    change c.blockStart + i + 1 ≠ c.n
    omega
  have hinside : (c.standAt i).offset + 1 ≠ (c.standAt i).block.length := Nat.ne_of_lt hi
  rw [next, if_neg hin, if_neg hinside]
  rfl

/-- From a value of the decoded block on, a scan collects what is there. -/
theorem collect_standAt (hfits : c.blockStart + c.block.length ≤ c.n) (steps : Nat) :
    ∀ {i : Nat}, i + steps < c.block.length →
      collect steps (c.standAt i) =
        .ok ((c.block.drop i).take (steps + 1), c.standAt (i + steps)) := by
  have hvalue : ∀ {i : Nat} (hi : i < c.block.length),
      SequenceCursor.value (c.standAt i) = c.block[i] := by
    intro i hi
    change c.block[i]?.getD 0 = _
    rw [List.getElem?_eq_getElem hi, Option.getD_some]
  induction steps with
  | zero =>
      intro i hi
      rw [Nat.add_zero] at hi ⊢
      rw [collect, hvalue hi, take_drop_succ hi]
      rfl
  | succ steps ih =>
      intro i hi
      have hin : i < c.block.length := by omega
      have hnext : SequenceCursor.next (c.standAt i) = .ok (c.standAt (i + 1)) :=
        next_standAt (by omega) hfits
      have hrest := ih (i := i + 1) (by omega)
      rw [collect, hvalue hin, take_drop_succ hin, hnext]
      simp only [bind, Except.bind, hrest, show i + (steps + 1) = i + 1 + steps by omega]
      rfl

/-- The cursor that goes on to a block of given gaps behind a value. -/
def onBlock (c : Cursor) (before : Option Nat) (gaps : List Nat) (consumed : Nat) : Cursor :=
  { c with
    block := (valuesOf before gaps).map (· % 2 ^ 32)
    decoded := c.decoded + 1
    rest := c.rest.drop consumed
    beforeBlock := before.map (· % 2 ^ 32)
    offset := 0 }

/-- The value that the cursor goes on from is, in 32 bits, the one that the values have
come to. -/
def GoesOnFrom (c : Cursor) (before : Option Nat) : Prop :=
  (if c.decoded = 0 then none else some c.lastOfBlock) = before.map (· % 2 ^ 32)

/-- The gaps of the next block. -/
def nextGaps (c : Cursor) : Except Error (List Nat × Nat) :=
  c.codec.decode c.rest (min (c.n - c.decoded * Codec.blockSize) Codec.blockSize) none

theorem decodeNext_eq_bind {before : Option Nat} (h : c.GoesOnFrom before) :
    c.decodeNext = (do
      let (gaps, consumed) ← c.nextGaps
      return c.onBlock before gaps consumed) := by
  simp only [decodeNext, show (if c.decoded = 0 then none else some c.lastOfBlock) = _ from h,
    map_mod_valuesOf]
  rfl

/-- Behind a block a step leads to the first value of the next one. -/
theorem next_of_lastOfBlock {before : Option Nat} (h : c.GoesOnFrom before)
    (hlast : c.offset + 1 = c.block.length) (hmore : c.position + 1 ≠ c.n) :
    c.next = (do
      let (gaps, consumed) ← c.nextGaps.mapError .corrupt
      return (c.onBlock before gaps consumed).standAt 0) := by
  rw [next, if_neg hmore, if_pos hlast, advance, decodeNext_eq_bind h]
  cases c.nextGaps <;> rfl

/-! ## Both readers -/

/-- The cursor has decoded a block, and its last value is, in 32 bits, the last of those
that were decoded at once. -/
structure Ready (c : Cursor) (prev : Nat) : Prop where
  decoded_pos : 0 < c.decoded
  block_pos : 0 < c.block.length
  reaches : c.blockStart + c.block.length = min c.n (c.decoded * Codec.blockSize)
  last_eq : c.lastOfBlock = prev % 2 ^ 32

theorem Ready.goesOnFrom {prev : Nat} (h : c.Ready prev) : c.GoesOnFrom (some prev) := by
  rw [GoesOnFrom, if_neg (Nat.ne_of_gt h.decoded_pos), h.last_eq]
  rfl

/-- The next block is full, or the last one; either way it is not empty. -/
theorem ready_onBlock (before : Option Nat) {gaps : List Nat} {consumed : Nat}
    (hgaps : c.nextGaps = .ok (gaps, consumed)) (hleft : c.decoded * Codec.blockSize < c.n) :
    ∃ prev, (valuesOf before gaps).getLast?.or before = some prev ∧
      (c.onBlock before gaps consumed).Ready prev := by
  have hlength := (Codec.isRun_of_decode (fun _ hnone => by cases hnone) hgaps).length_eq
  have hsize : 0 < Codec.blockSize := by decide
  have hne : valuesOf before gaps ≠ [] := by
    rw [← List.length_pos_iff, length_valuesOf, hlength]
    omega
  refine ⟨(valuesOf before gaps).getLast hne, ?_, Nat.succ_pos _, ?_, ?_, ?_⟩
  · rw [List.getLast?_eq_some_getLast hne]
    rfl
  · change 0 < ((valuesOf before gaps).map (· % 2 ^ 32)).length
    rw [List.length_map]
    exact List.length_pos_iff.mpr hne
  · change (c.decoded + 1 - 1) * Codec.blockSize +
      ((valuesOf before gaps).map (· % 2 ^ 32)).length = min c.n ((c.decoded + 1) * Codec.blockSize)
    rw [List.length_map, length_valuesOf, hlength, Nat.succ_mul, Nat.add_sub_cancel]
    omega
  · change ((valuesOf before gaps).map (· % 2 ^ 32)).getLastD 0 = _
    rw [List.getLastD_eq_getLast?, List.getLast?_map, List.getLast?_eq_some_getLast hne]
    rfl

/-- A cursor at the last of `n` values. -/
structure AtLast (n univ : Nat) (last : Cursor) : Prop where
  position_eq : last.position + 1 = n
  n_eq : last.n = n
  univ_eq : last.univ = univ

/-- A scan behind some values that were collected, and what is decoded at once behind
them: the scan collects the same in 32 bits up to the last value, and ends in damage
where decoding is refused. -/
def Matches (n univ : Nat) (front : List Nat) (scanned : Except Failure (List Nat × Cursor)) :
    Except Error (List Nat) → Prop
  | .ok values =>
      ∃ last, scanned = .ok (front ++ values.map (· % 2 ^ 32), last) ∧ AtLast n univ last
  | .error e => scanned = .error (.corrupt e)

namespace Matches

variable {front values : List Nat} {scanned : Except Failure (List Nat × Cursor)}
  {decoded : Except Error (List Nat)}

/-- More is collected in front. -/
theorem collected (h : Matches n univ front scanned decoded) (more : List Nat) :
    Matches n univ (more ++ front)
      (do
        let (others, last) ← scanned
        return (more ++ others, last))
      decoded := by
  cases decoded with
  | error e => exact congrArg (· >>= _) h
  | ok rest =>
      obtain ⟨last, rfl, hlast⟩ := h
      refine ⟨last, ?_, hlast⟩
      rw [List.append_assoc]
      rfl

/-- What is collected in front was decoded. -/
theorem decoded_first (h : Matches n univ (front ++ values.map (· % 2 ^ 32)) scanned decoded) :
    Matches n univ front scanned (do
      let rest ← decoded
      return values ++ rest) := by
  cases decoded with
  | error e => exact h
  | ok rest =>
      obtain ⟨last, hscanned, hlast⟩ := h
      refine ⟨last, ?_, hlast⟩
      rw [List.map_append, ← List.append_assoc]
      exact hscanned

end Matches

/-- Where no block is left, a scan collects the values of this one. -/
theorem collect_lastBlock {prev : Nat} (h : c.Ready prev)
    (hnone : c.n ≤ c.decoded * Codec.blockSize) :
    Matches c.n c.univ c.block (collect (c.n - 1 - c.blockStart) (c.standAt 0)) (.ok []) := by
  have hreaches := h.reaches
  have hpos := h.block_pos
  have hsteps : c.n - 1 - c.blockStart = c.block.length - 1 := by omega
  have hcollect := collect_standAt (c := c) (by omega) (c.block.length - 1) (i := 0)
    (by omega)
  refine ⟨c.standAt (c.block.length - 1), ?_, ?_, rfl, rfl⟩
  · rw [hsteps, hcollect, Nat.sub_add_cancel hpos, List.drop_zero, List.take_length, Nat.zero_add]
    exact congrArg (fun values => Except.ok (values, _)) (List.append_nil _).symm
  · change c.blockStart + (c.block.length - 1) + 1 = c.n
    omega

/-- The rest of a scan against the rest of the decoding, by induction on how many blocks
may be left. -/
theorem collect_matches {blocks : Nat} : ∀ {c : Cursor} {prev : Nat}, c.Ready prev →
    c.n - c.decoded * Codec.blockSize ≤ blocks * Codec.blockSize →
    Matches c.n c.univ c.block (collect (c.n - 1 - c.blockStart) (c.standAt 0))
      (decodeBlocks c.codec c.rest (some prev) (c.n - c.decoded * Codec.blockSize) blocks) := by
  induction blocks with
  | zero =>
      intro c prev h hblocks
      exact collect_lastBlock h (by omega)
  | succ blocks ih =>
      intro c prev h hblocks
      rw [decodeBlocks]
      by_cases hnone : c.n - c.decoded * Codec.blockSize = 0
      · rw [if_pos hnone]
        exact collect_lastBlock h (by omega)
      have hreaches := h.reaches
      have hpos := h.block_pos
      have hsteps : c.n - 1 - c.blockStart =
          c.block.length - 1 + 1 + (c.n - 1 - c.decoded * Codec.blockSize) := by omega
      have hcollect := collect_standAt (c := c) (by omega) (c.block.length - 1) (i := 0)
        (by omega)
      rw [Nat.sub_add_cancel hpos, List.drop_zero, List.take_length, Nat.zero_add] at hcollect
      have hnext : SequenceCursor.next (c.standAt (c.block.length - 1)) = (do
          let (gaps, consumed) ← c.nextGaps.mapError .corrupt
          return (c.onBlock (some prev) gaps consumed).standAt 0) := by
        refine next_of_lastOfBlock (c := c.standAt (c.block.length - 1)) h.goesOnFrom
          (Nat.sub_add_cancel hpos) ?_
        change c.blockStart + (c.block.length - 1) + 1 ≠ c.n
        omega
      have hbulk : c.codec.decode c.rest
          (min (c.n - c.decoded * Codec.blockSize) Codec.blockSize) none = c.nextGaps := rfl
      rw [if_neg hnone, hbulk, hsteps, collect_add, hcollect]
      simp only [bind, Except.bind, hnext]
      cases hgaps : c.nextGaps with
      | error e => rfl
      | ok answer =>
          obtain ⟨gaps, consumed⟩ := answer
          obtain ⟨last, hlast, hready⟩ := ready_onBlock (some prev) hgaps (by omega)
          have hleft : c.n - c.decoded * Codec.blockSize - Codec.blockSize =
              c.n - (c.decoded + 1) * Codec.blockSize := by
            rw [Nat.succ_mul]
            omega
          change Matches c.n c.univ c.block
            (do
              let (others, last) ← collect (c.n - 1 - c.decoded * Codec.blockSize)
                ((c.onBlock (some prev) gaps consumed).standAt 0)
              return (c.block ++ others, last))
            (do
              let rest ← decodeBlocks c.codec (c.rest.drop consumed)
                ((valuesOf (some prev) gaps).getLast?.or (some prev))
                (c.n - c.decoded * Codec.blockSize - Codec.blockSize) blocks
              return valuesOf (some prev) gaps ++ rest)
          rw [hlast, hleft]
          refine ((ih hready ?_).collected c.block).decoded_first
          change c.n - (c.decoded + 1) * Codec.blockSize ≤ _
          rw [Nat.succ_mul] at hblocks
          omega

end Cursor

/-! ## Agreement -/

variable {codec : Codec} {bits : BitString} {offset univ n : Nat}

/-- The cursor over a region before the first block is decoded. -/
def unread (codec : Codec) (bits : BitString) (offset univ n : Nat) : Cursor :=
  let bytes := bits.bytesFrom (alignUp offset 8)
  ⟨codec, bytes, n, univ, [], 0, bytes, none, 0, n, univ⟩

/-- A region that is refused when it is opened is refused for the same reason when it is
decoded at once; any other is scanned as it is decoded. -/
theorem opened_matches_decoded (codec : Codec) (bits : BitString) (offset univ : Nat)
    (hn : 0 < n) (params : Params) :
    (∃ e, decode codec bits offset n = .error e ∧
      openAt codec bits offset univ n params = .error (.refused e)) ∨
    ∃ c, openAt codec bits offset univ n params = .ok c ∧
      Cursor.Matches n univ [] (scan c (n - 1)) (decode codec bits offset n) := by
  let start := unread codec bits offset univ n
  obtain ⟨m, hm, hleft⟩ : ∃ m, blockCount n = m + 1 ∧
      n - 1 * Codec.blockSize ≤ m * Codec.blockSize := by
    refine ⟨blockCount n - 1, ?_, ?_⟩ <;> simp only [blockCount, Codec.blockSize] <;> omega
  have hfrom : start.GoesOnFrom none := rfl
  have hopen : openAt codec bits offset univ n params = (do
      let c ← start.decodeNext.mapError .refused
      return c.standAt 0) := if_neg (Nat.ne_of_gt hn)
  have hdecode : decode codec bits offset n = (do
      let (gaps, consumed) ← start.nextGaps
      let rest ← decodeBlocks codec (start.rest.drop consumed)
        ((valuesOf none gaps).getLast?.or none) (n - Codec.blockSize) m
      return valuesOf none gaps ++ rest) := by
    rw [decode, hm, decodeBlocks, if_neg (Nat.ne_of_gt hn)]
    rfl
  rw [hopen, hdecode, Cursor.decodeNext_eq_bind hfrom]
  cases hgaps : start.nextGaps with
  | error e => exact .inl ⟨e, rfl, rfl⟩
  | ok answer =>
      obtain ⟨gaps, consumed⟩ := answer
      obtain ⟨last, hlast, hready⟩ := Cursor.ready_onBlock none hgaps
        (show 0 * Codec.blockSize < n by omega)
      have hmove : moveTo ((start.onBlock none gaps consumed).standAt 0) 0 =
          .ok ((start.onBlock none gaps consumed).standAt 0) := Cursor.moveTo_zero hn rfl
      have hstart : (start.onBlock none gaps consumed).blockStart = 0 := Nat.zero_mul _
      have hdecoded : (start.onBlock none gaps consumed).decoded * Codec.blockSize =
          Codec.blockSize := Nat.one_mul _
      have hrest := Cursor.collect_matches hready hleft
      rw [hstart, hdecoded, Nat.sub_zero] at hrest
      refine .inr ⟨(start.onBlock none gaps consumed).standAt 0, rfl, ?_⟩
      rw [scan, hmove]
      change Cursor.Matches n univ [] (collect (n - 1) _) (do
        let rest ← decodeBlocks codec (start.rest.drop consumed)
          ((valuesOf none gaps).getLast?.or none) (n - Codec.blockSize) m
        return valuesOf none gaps ++ rest)
      rw [hlast]
      exact Cursor.Matches.decoded_first hrest

/-- **The two readers agree exactly where the values fit 32 bits.** -/
theorem readers_agree_iff (codec : Codec) (bits : BitString) (offset univ : Nat) (hn : 0 < n)
    (params : Params) :
    -- What is decoded at once is scanned in 32 bits, up to the end.
    (∀ values, decode codec bits offset n = .ok values →
      ∃ c last past, openAt codec bits offset univ n params = .ok c ∧
        scan c (n - 1) = .ok (values.map (· % 2 ^ 32), last) ∧
        next last = .ok past ∧ past.position = n ∧ past.value = univ ∧
        ((∃ last, scan c (n - 1) = .ok (values, last)) ↔ ∀ v ∈ values, v < 2 ^ 32)) ∧
    -- What is not decoded is not scanned either, for the same reason.
    ∀ e, decode codec bits offset n = .error e →
      openAt codec bits offset univ n params = .error (.refused e) ∨
        ∃ c, openAt codec bits offset univ n params = .ok c ∧
          scan c (n - 1) = .error (.corrupt e) := by
  have hopened := opened_matches_decoded codec bits offset univ hn params
  constructor
  · intro values hdecode
    rw [hdecode] at hopened
    rcases hopened with ⟨e, hrefused, -⟩ | ⟨c, hopen, last, hscan, hlast⟩
    · cases hrefused
    rw [List.nil_append] at hscan
    have hnext : next last = .ok last.atEnd := by
      change last.next = _
      rw [Cursor.next, if_pos (hlast.position_eq.trans hlast.n_eq.symm)]
      rfl
    refine ⟨c, last, last.atEnd, hopen, hscan, hnext, hlast.n_eq, hlast.univ_eq, ?_⟩
    rw [hscan, ← map_mod_eq_self_iff]
    constructor
    · rintro ⟨_, hsame⟩
      exact (Prod.mk.inj (Except.ok.inj hsame)).1
    · intro hsame
      exact ⟨last, by rw [hsame]⟩
  · intro e hdecode
    rw [hdecode] at hopened
    rcases hopened with ⟨_, hsame, hrefused⟩ | ⟨c, hopen, hscan⟩
    · obtain rfl := Except.error.inj hsame
      exact .inl hrefused
    · exact .inr ⟨c, hopen, hscan⟩

/-- The widest value that fits is read as it is, and a region that ends within its second
gap is not read at all. -/
theorem readers_agree_iff_of_two :
    let widest := BitString.empty.appendBytes [0x00, 0xFE, 0xFF, 0xFF, 0xFF, 0x0F]
    let torn := BitString.empty.appendBytes [0x00, 0x7F, 0xFF]
    0 < 2 ∧
    (decode .vbyte widest 0 2 = .ok [0, 2 ^ 32 - 1] ∧
      ∃ c last, openAt .vbyte widest 0 100 2 {} = .ok c ∧
        scan c 1 = .ok ([0, 2 ^ 32 - 1], last)) ∧
    ∃ e, decode .vbyte torn 0 3 = .error e ∧
      (openAt .vbyte torn 0 100 3 {} = .error (.refused e) ∨
        ∃ c, openAt .vbyte torn 0 100 3 {} = .ok c ∧ scan c 2 = .error (.corrupt e)) := by
  intro widest torn
  obtain ⟨hread, -⟩ := readers_agree_iff .vbyte widest 0 100 (n := 2) (by decide) {}
  obtain ⟨-, hdamaged⟩ := readers_agree_iff .vbyte torn 0 100 (n := 3) (by decide) {}
  have hdecode : decode .vbyte widest 0 2 = .ok [0, 2 ^ 32 - 1] := by decide +kernel
  obtain ⟨c, -, -, hopen, -, -, -, -, hsame⟩ := hread _ hdecode
  obtain ⟨last, hscan⟩ := hsame.mpr (by decide)
  refine ⟨by decide, ⟨hdecode, c, last, hopen, hscan⟩, ?_⟩
  cases htorn : decode .vbyte torn 0 3 with
  | error e => exact ⟨e, rfl, hdamaged e htorn⟩
  | ok values =>
      have hrefused : ¬ (decode .vbyte torn 0 3).toOption.isSome := by decide +kernel
      rw [htorn] at hrefused
      exact absurd rfl hrefused

/-- A gap that leads one past 32 bits is decoded at once as it is, and scanned as the value
at the front over again. -/
theorem wide_gap_wraps :
    let bits := BitString.empty.appendBytes [0x00, 0xFF, 0xFF, 0xFF, 0xFF, 0x0F]
    decode .vbyte bits 0 2 = .ok [0, 2 ^ 32] ∧
      ∃ c last, openAt .vbyte bits 0 100 2 {} = .ok c ∧ scan c 1 = .ok ([0, 0], last) ∧
        ¬ ∃ last, scan c 1 = .ok ([0, 2 ^ 32], last) := by
  intro bits
  have hdecode : decode .vbyte bits 0 2 = .ok [0, 2 ^ 32] := by decide +kernel
  have hopened := opened_matches_decoded .vbyte bits 0 100 (n := 2) (by decide) {}
  rw [hdecode] at hopened
  rcases hopened with ⟨e, hrefused, -⟩ | ⟨c, hopen, last, hscan, -⟩
  · cases hrefused
  refine ⟨hdecode, c, last, hopen, hscan, ?_⟩
  rintro ⟨_, hwide⟩
  rw [hscan] at hwide
  cases hwide

end GapBlocks
end Postings
