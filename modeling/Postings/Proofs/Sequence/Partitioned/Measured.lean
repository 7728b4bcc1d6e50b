import Postings.Proofs.Plan.Honest
import Postings.Proofs.Sequence.Adaptive.Estimate
import Postings.Proofs.Sequence.Planned

/-!
# The planner's costs are the payload's bits

The payloads of a region lie behind its header, from a byte boundary on.  When the format
of the partitions takes exactly what it is measured at, the payloads take the sum of that;
so with the byte codec a plan costs the bits of its payloads and the fixed cost of each
partition.  The cheapest plan of all then has the smallest payloads of all.
-/

namespace Postings
namespace Partitioned

open BitString

variable {nested : Format} {table : TableFormat} {sizing : Sizing} {params : Params}
  {config : BuildConfig} {values ends : List Nat} {univ : Nat} {before header bits : BitString}

/-! ## Payloads behind a header -/

/-- What the writer puts behind a header: the payload of the only partition, or those of
several from a bit string of their own. -/
inductive PayloadsBehind (nested : Format) (values ends : List Nat) (params : Params)
    (config : BuildConfig) (header bits : BitString) : Prop where
  | single (one : ends.length = 1)
      (written : (nested.write (values.map (· - values.headD 0))
        (values.getLastD 0 - values.headD 0 + 1) params config).runFrom header = (.ok (), bits))
  | several (several : 1 < ends.length) (payloads : BitString) (parts : List Part)
      (written : writePayloads nested params config .empty 0 (values.headD 0) values ends =
        .ok (payloads, parts))
      (joined : bits = header ++ payloads)

/-- A region that was written behind other bits: a header that ends on a byte boundary,
and the payloads, which a reader looks for where the header ends. -/
structure Region (nested : Format) (table : TableFormat) (sizing : Sizing) (values : List Nat)
    (univ : Nat) (ends : List Nat) (params : Params) (config : BuildConfig)
    (before header bits : BitString) : Prop where
  written : (writePartitions nested table sizing values univ ends params config).runFrom before =
    (.ok (), bits)
  grows : header.Extends before
  aligned : header.size % 8 = 0
  payloads : PayloadsBehind nested values ends params config header bits
  found : (sizing = .uniform → ends = uniformEnds params.partitionLog values.length) →
    ∀ frozen : BitString, frozen.Extends bits → ∃ l : Layout table,
      Layout.read table frozen before.size univ values.length params sizing = .ok l ∧
        l.payloadOffset = header.size

theorem exists_region (hnested : nested.Faithful params config) (htable : table.Faithful params)
    (hvalues : Ascending values univ) (h : Ends values.length ends) {rate : Nat}
    (hrate : nested.GrowsWithin params config rate) (hsmall : rate ≤ 2 ^ 31) (sizing : Sizing)
    (before : BitString) :
    ∃ header bits,
      Region nested table sizing values univ ends params config before header bits := by
  obtain ⟨bits, hwrite, w⟩ := exists_writePartitions hnested htable hvalues h sizing before
  have hcounted := appendGammaPositive_extends before ends.length
  have hcountedSize := hcounted.size_le
  have hread := fun {frozen : BitString} (hfrozen : frozen.Extends bits) =>
    w.read_count hnested htable hvalues h (v := frozen) rfl
      (.of_extends hfrozen (w.extends_before hnested htable hvalues h).size_le)
  simp only [Nat.add_sub_cancel' hcountedSize] at hread
  cases w with
  | single hone hpayload =>
      have hextends := hnested.grows (ascending_segment h hvalues h.length_pos) hpayload
      have hheader : (singleHeader values univ (before.appendGammaPositive ends.length)).Extends
          (before.appendGammaPositive ends.length) :=
        (singleHeader_extends _).trans (appendBits_extends _ _ _)
      refine ⟨_, bits, hwrite, ((padTo_extends _ 8).trans hheader).trans hcounted, ?_,
        .single hone ?_, fun _ frozen hfrozen => ?_⟩
      · rw [size_padTo_eight]
        exact alignUp_mod_eight _
      · rwa [segment_single h hone, spanAt, upperAt_single h hone] at hpayload
      · obtain ⟨hcount, -, hcarries⟩ := hread hfrozen
        refine ⟨_, hcount.trans ((if_pos hone).trans (readSingle_eq hvalues h hone
          (hcarries.mono (hextends.trans (padTo_extends _ 8))))), ?_⟩
        rw [size_padTo_eight]
        change alignUp (_ + (_ - _)) 8 = _
        rw [Nat.add_sub_cancel' hheader.size_le]
  | several hseveral parts =>
      have htabled := (parts.tabled_extends htable h hvalues).trans
        ((parts.sized_extends h hvalues hseveral).trans (appendGamma_extends _ _))
      have hstopped : parts.stopped.Extends parts.tabled :=
        (padTo_extends _ 8).trans (appendFields_extends parts.tabled parts.width parts.stops)
      refine ⟨parts.stopped, bits, hwrite, (hstopped.trans htabled).trans hcounted, ?_,
        .several hseveral parts.payloads parts.parts parts.payloads_eq parts.bits_eq,
        fun huniform frozen hfrozen => ?_⟩
      · rw [SeveralWritten.stopped, size_padTo_eight]
        exact alignUp_mod_eight _
      · obtain ⟨hcount, -, hcarries⟩ := hread hfrozen
        obtain ⟨l, hl, his⟩ := exists_readSeveral parts htable hvalues h hseveral huniform
          (parts.width_le_of_bounded htabled hcountedSize hvalues (.inr (hrate.mono hsmall))) rfl
          (hcarries.mono parts.extends_stopped)
        refine ⟨l, hcount.trans ((if_neg (Nat.ne_of_gt hseveral)).trans hl), ?_⟩
        have hoffset := his.payloadStart_eq 0 h.length_pos
        rw [Layout.payloadStart, if_pos rfl, SeveralWritten.startOf, if_pos rfl,
          Nat.add_sub_cancel' (hstopped.trans htabled).size_le] at hoffset
        omega

/-- The payloads take what the format of the partitions is measured at. -/
theorem PayloadsBehind.size_eq
    (hpayloads : PayloadsBehind nested values ends params config header bits)
    (hnested : nested.Faithful params config) (hvalues : Ascending values univ)
    (h : Ends values.length ends) (haligned : header.size % 8 = 0) {size : List Nat → Nat → Nat}
    (hsize : nested.Measures params config size) :
    bits.size = header.size + ((List.range' 0 ends.length).map fun p =>
      size (segment values ends p) (spanAt values ends p)).sum := by
  cases hpayloads with
  | single hone hwrite =>
      have hspan : spanAt values ends 0 = values.getLastD 0 - values.headD 0 + 1 := by
        rw [spanAt, upperAt_single h hone]
        rfl
      rw [← segment_single h hone, ← hspan] at hwrite
      rw [hsize.size_eq (ascending_segment h hvalues h.length_pos) haligned hwrite, hone]
      rfl
  | several hseveral payloads parts hwrite hjoined =>
      obtain ⟨all, parts', hwrite', -, -, hknown⟩ := writePayloads_eq hnested hvalues h
        (Nat.zero_add _) (show BitString.empty.size % 8 = 0 from rfl)
      obtain ⟨rfl, -⟩ := Prod.mk.inj (Except.ok.inj (hwrite.symm.trans hwrite'))
      rw [hjoined, size_append, hknown.size_eq hsize]
      simp only [Nat.sub_zero]
      rw [show BitString.empty.size = 0 from rfl, Nat.zero_add]

/-! ## Sums over partitions are costs of ways -/

theorem wayCost_drop (w : Nat → Nat → Nat) (ends : List Nat) {left : Nat} :
    ∀ {k : Nat}, k + left = ends.length →
      wayCost w (startAt ends k) (ends.drop k) = ((List.range' k left).map fun p =>
        w (startAt ends p) (startAt ends (p + 1))).sum := by
  induction left with
  | zero =>
      intro k hk
      rw [List.drop_of_length_le (by omega)]
      rfl
  | succ left ih =>
      intro k hk
      have hp : k < ends.length := by omega
      rw [List.drop_eq_getElem_cons hp, wayCost, ← startAt_succ hp, ih (by omega), List.range'_succ,
        List.map_cons, List.sum_cons]

/-- The cost of a partition in what is written of it. -/
theorem cutCost_startAt (codec : Codec) (hvalues : Ascending values univ)
    (h : Ends values.length ends) {p : Nat} (hp : p < ends.length) :
    cutCost ⟨codec, 0⟩ (values.headD 0) values (startAt ends p) (startAt ends (p + 1)) =
      Adaptive.bitSize (runCost codec 0 (segment values ends p)) (spanAt values ends p)
        (segment values ends p).length := by
  have hlt := h.startAt_lt hp
  have hstop := h.startAt_le (show p + 1 ≤ ends.length from hp)
  have hbase : positionBase (values.headD 0) values (startAt ends p) = baseAt values ends p := by
    cases p with
    | zero => rfl
    | succ p =>
        have := h.startAt_lt (show p < ends.length by omega)
        rw [positionBase, if_neg (by omega), baseAt, if_neg (Nat.succ_ne_zero p)]
  have hrising := (rising_of_headD hvalues.increasing (Nat.le_refl _)).take_drop (startAt ends p)
    (startAt ends (p + 1))
  rw [runStop_take (by omega), hbase] at hrising
  have hcost := runCost_map_sub codec (Nat.le_refl _) hrising
  rw [Nat.sub_self, take_drop_eq_segment, ← hbase, runCost_take (by omega)] at hcost
  rw [cutCost, hbase, length_segment h hp, hcost]
  rfl

theorem wayCost_fixCost (codec : Codec) (fixCost base : Nat) (values : List Nat) (start : Nat)
    (stops : List Nat) :
    wayCost (cutCost ⟨codec, fixCost⟩ base values) start stops =
      wayCost (cutCost ⟨codec, 0⟩ base values) start stops + fixCost * stops.length := by
  induction stops generalizing start with
  | nil => rfl
  | cons stop stops ih =>
      rw [wayCost, ih, wayCost, List.length_cons, Nat.mul_succ]
      simp only [cutCost]
      omega

/-- The payloads of the byte codec take what the planner estimates, without the fixed cost. -/
theorem Region.size_eq
    (r : Region (Adaptive.format .vbyte) table sizing values univ ends params config before header
      bits)
    (hvalues : Ascending values univ) (h : Ends values.length ends) :
    bits.size = header.size + wayCost (cutCost ⟨.vbyte, 0⟩ (values.headD 0) values) 0 ends := by
  rw [r.payloads.size_eq (Adaptive.faithful .vbyte params config) hvalues h r.aligned
    (Adaptive.measures_vbyte params config)]
  have hway := wayCost_drop (cutCost ⟨.vbyte, 0⟩ (values.headD 0) values) ends
    (Nat.zero_add ends.length)
  rw [startAt_zero, List.drop_zero] at hway
  rw [hway]
  congr 2
  refine List.map_congr_left fun p hp => (cutCost_startAt .vbyte hvalues h ?_).symm
  simpa using hp

/-- **With the byte codec a plan costs its payload.**  Any partitions take what is estimated
for them, behind the header; so the planned ones take what the plan costs, less the fixed cost
of each.  When that is zero, the exact plan has the smallest payload. -/
theorem payload_bits_exact (hconfig : config.validate = .ok ()) (hvalues : Ascending values univ)
    (params : Params) (before : BitString) :
    (∀ table sizing ends, table = EliasFano.format ∨ table = FixedWidth.format →
      Ends values.length ends →
      ∃ header bits, Region (Adaptive.format .vbyte) table sizing values univ ends params config
          before header bits ∧
        bits.size = header.size + wayCost (cutCost ⟨.vbyte, 0⟩ (values.headD 0) values) 0 ends) ∧
    ∃ plan header bits, planPartitions .vbyte values (values.headD 0) univ config = .ok plan ∧
      ((planned .vbyte).write values univ params config).runFrom before = (.ok (), bits) ∧
      Region (Adaptive.format .vbyte) EliasFano.format .stored values univ plan.ends params config
        before header bits ∧
      plan.cost = (bits.size - header.size) + config.fixCost * plan.ends.length ∧
      (config.isExact = true → config.fixCost = 0 → ∀ table sizing ends other otherBits,
        Region (Adaptive.format .vbyte) table sizing values univ ends params config before other
          otherBits → Ends values.length ends →
        ((config.eps3 == 0.0) = true ∨
          ∀ edge ∈ superblockEdges config (values.headD 0) values, edge ∈ ends) →
        bits.size - header.size ≤ otherBits.size - other.size) := by
  have hnested := Adaptive.faithful .vbyte params config
  have hexists : ∀ {table} sizing {ends}, table = EliasFano.format ∨ table = FixedWidth.format →
      Ends values.length ends → ∃ header bits,
        Region (Adaptive.format .vbyte) table sizing values univ ends params config before header
          bits := fun sizing _ known hends =>
    exists_region hnested (table_faithful known params).1 hvalues hends
      (Adaptive.growsWithin .vbyte params config) (by decide) sizing before
  refine ⟨fun table sizing ends known hends => ?_, ?_⟩
  · obtain ⟨header, bits, hregion⟩ := hexists sizing known hends
    exact ⟨header, bits, hregion, hregion.size_eq hvalues hends⟩
  obtain ⟨plan, hplan, his⟩ := exists_planPartitions .vbyte hconfig hvalues
    (Nat.le_refl (values.headD 0))
  obtain ⟨header, bits, hregion⟩ := hexists .stored (.inl rfl) his.ends
  have hsize := hregion.size_eq hvalues his.ends
  have hcost := wayCost_edgeCost ⟨.vbyte, config.fixCost⟩ hvalues
    (Nat.le_refl (values.headD 0)) his.ends
  rw [his.cost, wayCost_fixCost] at hcost
  refine ⟨plan, header, bits, hplan, ?_, hregion, by omega,
    fun hexact hzero table sizing ends other otherBits hother hends hpasses => ?_⟩
  · rw [runFrom_planned_write hvalues hplan, hregion.written]
  · obtain ⟨plan', hplan', -, hcheapest⟩ :=
      exists_planPartitions_exact .vbyte hconfig hexact hvalues (Nat.le_refl (values.headD 0))
    obtain rfl := Except.ok.inj (hplan.symm.trans hplan')
    have hedges : ∀ edge ∈ superblockEdges config (values.headD 0) values, edge ∈ ends := by
      refine hpasses.elim (fun hwhole edge hedge => ?_) id
      rw [superblockEdges_of_whole hwhole hvalues.length_pos, List.mem_singleton] at hedge
      rw [hedge]
      exact List.mem_of_getLast? hends.last
    have hle := hcheapest hends hedges
    have hsize' := hother.size_eq hvalues hends
    rw [wayCost_edgeCost _ hvalues (Nat.le_refl _) hends, hzero] at hle
    rw [hzero, Nat.zero_mul] at hcost
    omega

theorem payload_bits_exact_of_three :
    BuildConfig.validate { eps1 := 0.0, eps2 := 0.0, fixCost := 0 } = .ok () ∧
    Ascending [1, 4, 6] 9 ∧
    ∃ plan header bits,
      planPartitions .vbyte [1, 4, 6] 1 9 { eps1 := 0.0, eps2 := 0.0, fixCost := 0 } = .ok plan ∧
      Region (Adaptive.format .vbyte) EliasFano.format .stored [1, 4, 6] 9 plan.ends {}
        { eps1 := 0.0, eps2 := 0.0, fixCost := 0 } .empty header bits ∧
      plan.cost = bits.size - header.size ∧
      ∀ other otherBits,
        Region (Adaptive.format .vbyte) EliasFano.format .stored [1, 4, 6] 9 [2, 3] {}
          { eps1 := 0.0, eps2 := 0.0, fixCost := 0 } .empty other otherBits →
        bits.size - header.size ≤ otherBits.size - other.size := by
  have hconfig : BuildConfig.validate { eps1 := 0.0, eps2 := 0.0, fixCost := 0 } = .ok () := by
    decide +kernel
  have hvalues : Ascending [1, 4, 6] 9 := ⟨by decide, by decide, by decide, by decide⟩
  obtain ⟨-, plan, header, bits, hplan, -, hregion, hcost, hsmallest⟩ :=
    payload_bits_exact hconfig hvalues {} .empty
  refine ⟨hconfig, hvalues, plan, header, bits, hplan, hregion, ?_,
    fun other otherBits hother => ?_⟩
  · rwa [show (0 : Nat) * plan.ends.length = 0 from Nat.zero_mul _] at hcost
  · exact hsmallest (by decide +kernel) rfl _ _ [2, 3] other otherBits hother
      ⟨rfl, by decide, by decide⟩ (.inl (by decide +kernel))

end Partitioned
end Postings
