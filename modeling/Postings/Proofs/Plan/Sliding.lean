import Postings.Proofs.Codec.Bytes
import Postings.Proofs.Plan.Moments

/-!
# Windows that slide

A window may begin at any position with nothing in it.  It takes up the value behind its end
and gives up its first one, in any order, and carries its cost along.  However it came to stand
where it stands, its cost is that of the run from scratch, and what it is about to give up is
in the sum that it will be taken from.

Without the fixed cost, a partition costs what its payload is estimated at.  The estimate of a
posting grows with its gap, so with the value and against the base.  The estimate of a payload
grows with the run, at either end; and two payloads in place of one are estimated at no more
than 16 bits above it: a second tag, and the rounding of a second size.
-/

namespace Postings

variable {codec : Codec} {pricing : Pricing} {base start startBase : Nat} {run : Priced}
  {values : List Nat}

/-! ## Postings -/

/-- A posting costs no less when its gap is wider. -/
theorem Codec.postingCost_mono (codec : Codec) {value value' base base' : Nat}
    (h : value - base ≤ value' - base') :
    codec.postingCost value base ≤ codec.postingCost value' base' := by
  have hsevens := digitCount_mono 7 h
  have heights := digitCount_mono 8 h
  cases codec with
  | interpolative =>
      have hlog := log2_mono h
      simp only [postingCost]
      split <;> split <;> omega
  | vbyte | groupVarint | groupUnary | streamVByte =>
      simp only [postingCost]
      omega

/-! ## Sliding -/

/-- How a window over a list may come to stand: where it begins, the base of its first value,
and what is known of its run. -/
inductive Slides (codec : Codec) (base : Nat) (values : List Nat) : Nat → Nat → Priced → Prop
  /-- It begins at any position, with nothing in it. -/
  | fresh {i : Nat} (hi : i ≤ values.length) :
      Slides codec base values i (positionBase base values i)
        (.empty i (positionBase base values i))
  /-- It takes up the value behind its end. -/
  | takeUp {start startBase : Nat} {run : Priced} {v : Nat}
      (h : Slides codec base values start startBase run) (hv : values[run.stop]? = some v) :
      Slides codec base values start startBase (run.add codec v)
  /-- It gives up its first value. -/
  | giveUp {start startBase : Nat} {run : Priced} {v : Nat}
      (h : Slides codec base values start startBase run) (hne : start < run.stop)
      (hv : values[start]? = some v) :
      Slides codec base values (start + 1) (v + 1) (run.dropFirst codec v startBase)

/-- Whatever a window takes up or gives up, it stays over a part of the list. -/
theorem Slides.over (h : Slides codec base values start startBase run) :
    ∃ front part ahead,
      Moment.Over codec base values front part ahead ⟨start, startBase, run, none⟩ := by
  induction h with
  | @fresh i hi =>
      have hlength : (values.take i).length = i := by
        rw [List.length_take, Nat.min_eq_left hi]
      refine ⟨values.take i, [], values.drop i, ⟨(List.take_append_drop i values).symm,
        hlength.symm, (runStop_take hi).symm, ?_, fun v hv => by cases hv⟩⟩
      rw [hlength, runStop_take hi]
      rfl
  | @takeUp start startBase run v _ hv ih =>
      obtain ⟨front, part, ahead, ⟨rfl, hstart, hbase, hrun, -⟩⟩ := ih
      have hrun : run = .spanning codec front.length (runStop base front) part := hrun
      have hstop : run.stop = (front ++ part).length := by
        rw [hrun, List.length_append]
        rfl
      rw [hstop, ← List.append_assoc, List.getElem?_append_right (Nat.le_refl _), Nat.sub_self,
        ← List.head?_eq_getElem?] at hv
      obtain ⟨later, rfl⟩ := List.head?_eq_some_iff.mp hv
      refine ⟨front, part ++ [v], later, ⟨?_, hstart, hbase, ?_, fun v hv => by cases hv⟩⟩
      · rw [List.append_assoc, List.singleton_append]
      · rw [← Priced.add_spanning, ← hrun]
  | @giveUp start startBase run v _ hne hv ih =>
      obtain ⟨front, part, ahead, ⟨rfl, hstart, hbase, hrun, -⟩⟩ := ih
      have hstart : start = front.length := hstart
      have hbase : startBase = runStop base front := hbase
      have hrun : run = .spanning codec front.length (runStop base front) part := hrun
      subst hstart hbase hrun
      have hpos : 0 < part.length := Nat.lt_add_right_iff_pos.mp hne
      obtain ⟨first, part, rfl⟩ := List.exists_cons_of_length_pos hpos
      rw [List.getElem?_append_right (Nat.le_refl _), Nat.sub_self] at hv
      obtain rfl : first = v := Option.some.inj hv
      have hlength : (front ++ [first]).length = front.length + 1 := by
        rw [List.length_append, List.length_singleton]
      have hstop : runStop base (front ++ [first]) = first + 1 := runStop_append base front [first]
      refine ⟨front ++ [first], part, ahead,
        ⟨?_, hlength.symm, hstop.symm, ?_, fun v hv => by cases hv⟩⟩
      · rw [List.append_assoc]
        rfl
      · rw [hlength, hstop]
        exact Priced.dropFirst_spanning part first

/-- A window that slides has the cost of what it stands over. -/
theorem Slides.cost_eq (h : Slides codec base values start startBase run)
    (hcodec : pricing.codec = codec) (hincreasing : values.Pairwise (· < ·))
    (hbase : base ≤ values.headD 0) (hne : start < run.stop) :
    run.cost pricing start startBase = cutCost pricing base values start run.stop := by
  subst hcodec
  obtain ⟨front, part, ahead, hover⟩ := h.over
  have hstop := (hover.sound (rising_of_headD hincreasing hbase)).stop_le
  obtain ⟨rfl, hstart, hbaseEq, hrun, -⟩ := hover
  simp only at hstart hbaseEq hrun hstop
  subst hstart hbaseEq hrun
  rw [← edgeCost_eq_cutCost_of_increasing hincreasing hbase hne hstop, Priced.cost_spanning]
  exact (edgeCost_append front part ahead).symm

/-- What a window gives up is in its sum. -/
theorem Slides.leaving_le (h : Slides codec base values start startBase run)
    (hne : start < run.stop) :
    codec.postingCost (values[start]?.getD 0) startBase ≤ run.codecCost := by
  obtain ⟨front, part, ahead, ⟨rfl, hstart, hbase, hrun, -⟩⟩ := h.over
  simp only at hstart hbase hrun
  subst hstart hbase hrun
  obtain ⟨first, part, rfl⟩ := List.exists_cons_of_length_pos (Nat.lt_add_right_iff_pos.mp hne)
  rw [List.getElem?_append_right (Nat.le_refl _), Nat.sub_self]
  exact Nat.le_add_right _ _

/-! ## Partitions -/

/-- **Partitions cost no less than their parts, and a cut costs at most 16 bits.**  The cost is
that of the payload alone, and it is what every window reports that slides over the list. -/
theorem cutCost_mono_and_cut_le (codec : Codec) (hincreasing : values.Pairwise (· < ·))
    (hbase : base ≤ values.headD 0) :
    let cost := cutCost ⟨codec, 0⟩ base values
    (∀ i' i j j', i' ≤ i → i < j → j ≤ j' → j' ≤ values.length → cost i j ≤ cost i' j') ∧
    (∀ i k j, i < k → k < j → j ≤ values.length → cost i k + cost k j ≤ cost i j + 16) ∧
    (∀ b v v', v ≤ v' → codec.postingCost v b ≤ codec.postingCost v' b) ∧
    (∀ v b b', b ≤ b' → codec.postingCost v b' ≤ codec.postingCost v b) ∧
    ∀ start startBase run, Slides codec base values start startBase run → start < run.stop →
      run.cost ⟨codec, 0⟩ start startBase = cost start run.stop ∧
      codec.postingCost (values[start]?.getD 0) startBase ≤ run.codecCost := by
  intro cost
  have hcost : ∀ {i j}, i < j → j ≤ values.length →
      cost i j = edgeCost ⟨codec, 0⟩ base values i j := fun hij hj =>
    (edgeCost_eq_cutCost_of_increasing hincreasing hbase hij hj).symm
  refine ⟨fun i' i j j' hi hij hj hj' => ?_, fun i k j hik hkj hj => ?_, fun b v v' hv => ?_,
    fun v b b' hb => ?_, fun start startBase run h hne => ?_⟩
  · rw [hcost hij (hj.trans hj'), hcost (Nat.lt_of_le_of_lt hi (Nat.lt_of_lt_of_le hij hj)) hj']
    exact edgeCost_mono hincreasing hbase hi (Nat.le_of_lt hij) hj
  · rw [hcost hik (Nat.le_of_lt hkj |>.trans hj), hcost hkj hj, hcost (hik.trans hkj) hj]
    have hcut : edgeCost ⟨codec, 0⟩ base values i k + edgeCost ⟨codec, 0⟩ base values k j ≤
        edgeCost ⟨codec, 0⟩ base values i j + (0 + 16) :=
      edgeCost_cut_le (rising_of_headD hincreasing hbase) (Nat.le_of_lt hik) (Nat.le_of_lt hkj)
    rwa [Nat.zero_add] at hcut
  · exact codec.postingCost_mono (Nat.sub_le_sub_right hv b)
  · exact codec.postingCost_mono (Nat.sub_le_sub_left hb v)
  · exact ⟨h.cost_eq rfl hincreasing hbase hne, h.leaving_le hne⟩

/-- Two values that fill their universe cost nothing, and less than the runs around them. -/
theorem cutCost_mono_and_cut_le_of_five :
    [3, 4, 5, 9, 300].Pairwise (· < ·) ∧ 2 ≤ [3, 4, 5, 9, 300].headD 0 ∧
    cutCost ⟨.vbyte, 0⟩ 2 [3, 4, 5, 9, 300] 1 3 = 0 ∧
    cutCost ⟨.vbyte, 0⟩ 2 [3, 4, 5, 9, 300] 1 3 ≤ cutCost ⟨.vbyte, 0⟩ 2 [3, 4, 5, 9, 300] 0 5 ∧
    cutCost ⟨.vbyte, 0⟩ 2 [3, 4, 5, 9, 300] 0 3 + cutCost ⟨.vbyte, 0⟩ 2 [3, 4, 5, 9, 300] 3 5 ≤
      cutCost ⟨.vbyte, 0⟩ 2 [3, 4, 5, 9, 300] 0 5 + 16 ∧
    Codec.postingCost .vbyte 300 10 ≤ Codec.postingCost .vbyte 300 2 ∧
    (Priced.mk 1 4 8).cost ⟨.vbyte, 0⟩ 0 2 = cutCost ⟨.vbyte, 0⟩ 2 [3, 4, 5, 9, 300] 0 1 := by
  have hincreasing : [3, 4, 5, 9, 300].Pairwise (· < ·) := by decide
  obtain ⟨hmono, hcut, -, hanti, hslides⟩ :=
    cutCost_mono_and_cut_le .vbyte hincreasing (show 2 ≤ 3 by decide)
  have hwindow : Slides .vbyte 2 [3, 4, 5, 9, 300] 0 2 (.mk 1 4 8) :=
    .takeUp (.fresh (Nat.zero_le _)) rfl
  exact ⟨hincreasing, by decide, by decide, hmono 0 1 3 5 (by decide) (by decide) (by decide)
    (by decide), hcut 0 3 5 (by decide) (by decide) (by decide), hanti 300 2 10 (by decide),
    (hslides 0 2 _ hwindow (by decide)).1⟩

end Postings
