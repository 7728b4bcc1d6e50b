import Postings.Bytes

/-!
# Loading, exactly

What a part of a file means is told in two directions.  `Loads` goes from the bytes to
the value: the bytes are read as that value whatever follows them, and no shorter file
will do.  The inversions go back: what was read is spelled by the bytes that were taken.
Both compose along the reading of one part after another.
-/

namespace Postings

variable {α β : Type}

/-- The bytes are read as `a` and taken exactly; a file that ends within them is reported
as a failure of the source. -/
structure Loads (loading : Loading α) (bytes : List UInt8) (a : α) : Prop where
  runFrom_eq : ∀ trailing, loading.runFrom (bytes ++ trailing) = (.ok a, trailing)
  short : ∀ part, part <+: bytes → part ≠ bytes →
    ∃ context source rest, loading.runFrom part = (.error (.io context source), rest)

namespace Loads

theorem pure (a : α) : Loads (pure a) [] a where
  runFrom_eq _ := rfl
  short _ hpart hne := absurd (List.prefix_nil.mp hpart) hne

/-- Two parts in a row. -/
theorem bind {loading : Loading α} {next : α → Loading β} {front back : List UInt8} {a : α}
    {b : β} (hfront : Loads loading front a) (hback : Loads (next a) back b) :
    Loads (loading >>= next) (front ++ back) b where
  runFrom_eq trailing := by
    rw [List.append_assoc, Attempt.runFrom_bind, hfront.runFrom_eq]
    exact hback.runFrom_eq trailing
  short part hpart hne := by
    rw [Attempt.runFrom_bind]
    -- The file ends within the first part, or it has that part and ends within the second.
    rcases List.prefix_or_prefix_of_prefix hpart (List.prefix_append front back) with
      hwithin | ⟨more, rfl⟩
    · by_cases hwhole : part = front
      · subst hwhole
        have hshort := hback.short [] List.nil_prefix fun hnil =>
          hne (by rw [← hnil, List.append_nil])
        obtain ⟨context, source, rest, hrun⟩ := hshort
        have hread := hfront.runFrom_eq []
        rw [List.append_nil] at hread
        rw [hread]
        exact ⟨context, source, rest, hrun⟩
      · obtain ⟨context, source, rest, hrun⟩ := hfront.short part hwithin hwhole
        rw [hrun]
        exact ⟨context, source, rest, rfl⟩
    · rw [hfront.runFrom_eq]
      exact hback.short more ((List.prefix_append_right_inj front).mp hpart)
        fun hmore => hne (congrArg (front ++ ·) hmore)

/-- What is made of a part once it is read. -/
theorem map {loading : Loading α} {bytes : List UInt8} {a : α} (h : Loads loading bytes a)
    (f : α → β) : Loads (do return f (← loading)) bytes (f a) := by
  rw [← List.append_nil bytes]
  exact h.bind (.pure (f a))

/-- A check takes nothing. -/
theorem lift {check : Except Error α} {a : α} (h : check = .ok a) : Loads (liftM check) [] a := by
  subst h
  exact .pure a

end Loads

/-! ## Bytes and numbers -/

theorem loads_loadBytes (context : String) (bytes : List UInt8) :
    Loads (loadBytes context bytes.length) bytes bytes where
  runFrom_eq trailing := by
    rw [loadBytes, Attempt.runFrom_bind, Attempt.runFrom_get]
    simp only
    rw [if_neg (by rw [List.length_append]; omega)]
    rw [Attempt.runFrom_bind, Attempt.runFrom_set, List.drop_left, List.take_left]
    rfl
  short part hpart hne := by
    have hlt : part.length < bytes.length :=
      Nat.lt_of_le_of_ne hpart.length_le fun hlength => hne (hpart.eq_of_length hlength)
    refine ⟨context, "failed to fill whole buffer", part, ?_⟩
    rw [loadBytes, Attempt.runFrom_bind, Attempt.runFrom_get]
    simp only
    rw [if_pos hlt]
    rfl

/-- What was read is the front of the file. -/
theorem of_loadBytes {context : String} {count : Nat} {bytes rest taken : List UInt8}
    (h : (loadBytes context count).runFrom bytes = (.ok taken, rest)) :
    taken.length = count ∧ bytes = taken ++ rest := by
  rw [loadBytes, Attempt.runFrom_bind, Attempt.runFrom_get] at h
  simp only at h
  split at h
  · cases h
  · rename_i hfits
    cases h
    refine ⟨?_, (List.take_append_drop count bytes).symm⟩
    rw [List.length_take]
    omega

theorem loads_number (context : String) (count : Nat) {x : Nat} (hx : x < 256 ^ count) :
    Loads (do return ofLeBytes (← loadBytes context count)) (leBytes count x) x := by
  have hload := (loads_loadBytes context (leBytes count x)).map ofLeBytes
  rw [length_leBytes, ofLeBytes_leBytes, Nat.mod_eq_of_lt hx] at hload
  exact hload

theorem of_number {context : String} {count x : Nat} {bytes rest : List UInt8}
    (h : Attempt.runFrom (do return ofLeBytes (← loadBytes context count)) bytes = (.ok x, rest)) :
    x < 256 ^ count ∧ bytes = leBytes count x ++ rest := by
  obtain ⟨taken, left, htaken, hx⟩ := Attempt.of_runFrom_bind h
  obtain ⟨rfl, rfl⟩ := of_loadBytes htaken
  cases hx
  exact ⟨ofLeBytes_lt taken, by rw [leBytes_ofLeBytes]⟩

theorem loads_loadU8 (context : String) {x : Nat} (hx : x < 2 ^ 8) :
    Loads (loadU8 context) (leBytes 1 x) x :=
  loads_number context 1 hx

theorem of_loadU8 {context : String} {x : Nat} {bytes rest : List UInt8}
    (h : (loadU8 context).runFrom bytes = (.ok x, rest)) :
    x < 2 ^ 8 ∧ bytes = leBytes 1 x ++ rest :=
  of_number h

theorem loads_loadU64 (context : String) {x : Nat} (hx : x < 2 ^ 64) :
    Loads (loadU64 context) (leBytes 8 x) x :=
  loads_number context 8 hx

theorem of_loadU64 {context : String} {x : Nat} {bytes rest : List UInt8}
    (h : (loadU64 context).runFrom bytes = (.ok x, rest)) :
    x < 2 ^ 64 ∧ bytes = leBytes 8 x ++ rest :=
  of_number h

/-! ## Many numbers -/

theorem length_flatMap_leBytes (count : Nat) (values : List Nat) :
    (values.flatMap (leBytes count)).length = count * values.length := by
  induction values with
  | nil => rfl
  | cons x values ih =>
      rw [List.flatMap_cons, List.length_append, length_leBytes, ih, List.length_cons, Nat.mul_succ,
        Nat.add_comm]

theorem u64sOfBytes_flatMap_leBytes {values : List Nat} (h : ∀ x ∈ values, x < 2 ^ 64) :
    u64sOfBytes values.length (values.flatMap (leBytes 8)) = values := by
  induction values with
  | nil => rfl
  | cons x values ih =>
      obtain ⟨hx, hvalues⟩ := List.forall_mem_cons.mp h
      rw [List.flatMap_cons, List.length_cons, u64sOfBytes,
        List.take_left' (length_leBytes 8 x), List.drop_left' (length_leBytes 8 x),
        ofLeBytes_leBytes, Nat.mod_eq_of_lt hx, ih hvalues]

theorem length_u64sOfBytes (count : Nat) (bytes : List UInt8) :
    (u64sOfBytes count bytes).length = count := by
  induction count generalizing bytes with
  | zero => rfl
  | succ count ih => rw [u64sOfBytes, List.length_cons, ih]

/-- Spelling back the numbers that whole bytes spell gives the bytes. -/
theorem flatMap_leBytes_u64sOfBytes {count : Nat} {bytes : List UInt8}
    (h : bytes.length = 8 * count) :
    (u64sOfBytes count bytes).flatMap (leBytes 8) = bytes := by
  induction count generalizing bytes with
  | zero =>
      obtain rfl := List.length_eq_zero_iff.mp h
      rfl
  | succ count ih =>
      have hfront : (bytes.take 8).length = 8 := by
        rw [List.length_take]
        omega
      have hspelled := leBytes_ofLeBytes (bytes.take 8)
      rw [hfront] at hspelled
      rw [u64sOfBytes, List.flatMap_cons, hspelled, ih (by rw [List.length_drop]; omega),
        List.take_append_drop]

theorem u64sOfBytes_lt (count : Nat) (bytes : List UInt8) :
    ∀ x ∈ u64sOfBytes count bytes, x < 2 ^ 64 := by
  induction count generalizing bytes with
  | zero => exact List.forall_mem_nil _
  | succ count ih =>
      refine List.forall_mem_cons.mpr ⟨?_, ih _⟩
      have hlength : (bytes.take 8).length ≤ 8 := List.length_take_le 8 bytes
      exact Nat.lt_of_lt_of_le (ofLeBytes_lt _) (Nat.pow_le_pow_right (by decide) hlength)

theorem loads_loadU64s (context : String) {values : List Nat} (h : ∀ x ∈ values, x < 2 ^ 64) :
    Loads (loadU64s context values.length) (values.flatMap (leBytes 8)) values := by
  have hload := (loads_loadBytes context (values.flatMap (leBytes 8))).map
    (u64sOfBytes values.length)
  rw [length_flatMap_leBytes, u64sOfBytes_flatMap_leBytes h] at hload
  exact hload

theorem of_loadU64s {context : String} {count : Nat} {values : List Nat} {bytes rest : List UInt8}
    (h : (loadU64s context count).runFrom bytes = (.ok values, rest)) :
    values.length = count ∧ (∀ x ∈ values, x < 2 ^ 64) ∧
      bytes = values.flatMap (leBytes 8) ++ rest := by
  obtain ⟨taken, left, htaken, hvalues⟩ := Attempt.of_runFrom_bind h
  obtain ⟨hlength, rfl⟩ := of_loadBytes htaken
  cases hvalues
  exact ⟨length_u64sOfBytes count taken, u64sOfBytes_lt count taken,
    by rw [flatMap_leBytes_u64sOfBytes hlength]⟩

end Postings
