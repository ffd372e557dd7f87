import MidenVm.Air.Range
import MidenVm.Processor.RangeChecker

namespace MidenVm.Processor

open Foundation Outcome List Nat RangeChecker OrderedMap RangeRow

/-!
# The range table covers the lookups

Both loops over strides take the same turns, so the rows that one of them writes
are those that the other counts.  Every row they write lies one allowed step behind
its neighbour, and only the rows of looked up values count lookups.
-/

/-- The strides of the loops, from the last one. -/
def strideAt : Nat -> Nat
  | 0 => 0
  | index + 1 => 3 ^ index

theorem strideAt_div (index : Nat) : strideAt (index + 1) / 3 = strideAt index := by
  cases index with
  | zero => rfl
  | succ index => rw [strideAt, pow_succ, Nat.mul_div_cancel _ (by decide)]; rfl

/-- A step of the value column: none, or a power of three up to `3^7`. -/
def Allowed (current next : Nat) : Prop :=
  next = current ∨ ∃ exponent ≤ 7, next = current + 3 ^ exponent

theorem Allowed.le {current next : Nat} (allowed : Allowed current next) : current ≤ next := by
  rcases allowed with same | ⟨exponent, -, stepped⟩
  · exact same.ge
  · exact stepped ▸ Nat.le_add_right _ _

/-- The loops stop, and agree on the number of bridge rows. -/
theorem loops_stop (gap prevVal : Nat) {index : Nat} (low : index ≤ 8)
    (more : 0 < gap -> 0 < index) : ∃ rows : List RangeRow, (forall rounds, gap + index < rounds ->
        writeLoop rounds gap prevVal (strideAt index) = .ok rows ∧
        forall bridgeRows, bridgeLoop rounds gap (strideAt index) bridgeRows =
          .ok (bridgeRows + rows.length)) ∧
      (prevVal :: rows.map v ++ [prevVal + gap]).IsChain Allowed ∧
      forall row, row ∈ rows -> row.m = 0 := by
  by_cases equal : gap = strideAt index
  · refine ⟨[], ?_, ?_, by simp⟩
    · intro rounds enough
      cases rounds with
      | zero => cases enough
      | succ rounds => simp [writeLoop, bridgeLoop, equal]
    · refine isChain_pair.mpr ?_
      cases index with
      | zero => exact .inl (by rw [equal]; rfl)
      | succ index => exact .inr ⟨index, le_of_succ_le_succ low, by rw [equal]; rfl⟩
  · cases index with
    | zero => exact absurd (more (Nat.pos_of_ne_zero equal)) (Nat.lt_irrefl 0)
    | succ index =>
      have positive : 0 < strideAt (index + 1) := Nat.pow_pos (by decide)
      by_cases above : gap > strideAt (index + 1)
      · -- one bridge row, with the same stride
        rcases loops_stop (gap - strideAt (index + 1)) (prevVal + strideAt (index + 1)) low
          (fun _ => succ_pos index) with ⟨rows, stop, chain, idle⟩
        refine ⟨⟨0, prevVal + strideAt (index + 1)⟩ :: rows, ?_, ?_,
          forall_mem_cons.mpr ⟨rfl, idle⟩⟩
        · intro rounds enough
          cases rounds with
          | zero => cases enough
          | succ rounds =>
            rcases stop rounds (by omega) with ⟨written, counted⟩
            simp only [writeLoop, bridgeLoop, if_neg equal, if_pos above, written, counted]
            exact ⟨rfl, fun bridgeRows => by rw [length_cons, add_right_comm]; rfl⟩
        · rw [add_assoc, Nat.add_sub_cancel' above.le] at chain
          exact isChain_cons_cons.mpr ⟨.inr ⟨index, le_of_succ_le_succ low, rfl⟩, chain⟩
      · have smaller : 0 < gap -> 0 < index := by
          intro some
          refine Nat.pos_of_ne_zero (fun zero => ?_)
          subst zero
          change gap ≠ 1 at equal
          change ¬ gap > 1 at above
          omega
        rcases loops_stop gap prevVal (le_of_succ_le low) smaller with ⟨rows, stop, chain, idle⟩
        refine ⟨rows, ?_, chain, idle⟩
        intro rounds enough
        cases rounds with
        | zero => cases enough
        | succ rounds =>
          simp only [writeLoop, bridgeLoop, if_neg equal, if_neg above, strideAt_div]
          exact stop rounds (by omega)
termination_by gap + index

/-! ## The table -/

/-- The lookups that the rows of a value count. -/
def multiplicity (value : Nat) (rows : List RangeRow) : Nat :=
  ((rows.filter (fun row => row.v = value)).map RangeRow.m).sum

theorem multiplicity_append (value : Nat) (front back : List RangeRow) :
    multiplicity value (front ++ back) = multiplicity value front + multiplicity value back := by
  rw [multiplicity, filter_append, map_append, sum_append_nat]
  rfl

theorem multiplicity_eq_zero (value : Nat) {rows : List RangeRow}
    (idle : forall row, row ∈ rows -> row.m = 0) : multiplicity value rows = 0 := by
  refine sum_eq_zero (fun count listed => ?_)
  rcases mem_map.mp listed with ⟨row, kept, rfl⟩
  exact idle row (mem_of_mem_filter kept)

/-- The rows of ascending values behind a given one. -/
theorem emitEntries_spec (prevValue : Nat) {entries : List (U16 × Nat)}
    (sorted : SortedEntries entries)
    (behind : forall entry, entry ∈ entries -> prevValue ≤ entry.1) :
    ∃ rows : List RangeRow, (forall rounds, 2 ^ 16 + 8 ≤ rounds ->
        emitEntries rounds prevValue entries = .ok rows ∧
        forall numRows, countEntries rounds prevValue numRows entries =
          .ok (numRows + rows.length)) ∧
      (forall rest, (entries.foldl (fun _ entry => (entry.1 : Nat)) prevValue :: rest).IsChain Allowed ->
        (prevValue :: rows.map v ++ rest).IsChain Allowed) ∧
      (forall entry, entry ∈ entries -> ⟨entry.2, entry.1⟩ ∈ rows) ∧
      forall value : U16, multiplicity value rows = (entries.lookup value).getD 0 := by
  induction entries generalizing prevValue with
  | nil => exact ⟨[], fun _ _ => ⟨rfl, fun _ => rfl⟩, fun _ chain => chain, by simp, fun _ => rfl⟩
  | cons entry entries ih =>
    rcases pairwise_cons.mp sorted with ⟨ahead, others⟩
    rcases ih entry.1 others (fun next member => (ahead next member).le) with
      ⟨more, stop, chain, present, counts⟩
    have ordered : prevValue ≤ entry.1 := behind entry mem_cons_self
    rcases loops_stop (entry.1 - prevValue) prevValue (Nat.le_refl 8) (fun _ => by decide) with
      ⟨bridge, bridged, steps, idle⟩
    have gap : (checkedSub entry.1 prevValue : Outcome Unit Nat) = .ok (entry.1 - prevValue) :=
      checkedSub_of_le ordered
    have widest : 3 ^ 7 = strideAt 8 := rfl
    refine ⟨bridge ++ [⟨entry.2, entry.1⟩] ++ more, ?_, ?_, ?_, ?_⟩
    · intro rounds enough
      rcases stop rounds enough with ⟨emitted, counted⟩
      rcases bridged rounds (by omega) with ⟨written, bridges⟩
      simp only [emitEntries, writeRows, countEntries, getNumBridgeRows, gap, widest, written,
        bridges, emitted,
        counted, ok_bind, pure_eq_ok, length_append, length_singleton, zero_add, true_and]
      exact fun numRows => congrArg _ (by omega)
    · intro rest last
      rw [Nat.add_sub_cancel' ordered] at steps
      have whole := isChain_split.mpr ⟨steps, chain rest last⟩
      simpa using whole
    · refine forall_mem_cons.mpr ⟨by simp, fun next member => ?_⟩
      exact mem_append_right _ (present next member)
    · intro value
      rw [multiplicity_append, multiplicity_append, multiplicity_eq_zero _ idle, zero_add,
        counts, lookup_cons]
      by_cases same : value = entry.1
      · have absent : entries.lookup value = none :=
          lookup_eq_none.mpr (fun next member => same ▸ (ahead next member).ne')
        rw [absent]
        simp [multiplicity, same]
      · simp [multiplicity, Fin.val_inj, Ne.symm same, beq_false_of_ne same]

namespace RangeChecker

theorem get?_addRangeChecks (checker : RangeChecker) (values : List U16) (value : U16) :
    ((checker.addRangeChecks values).lookups.get? value).getD 0 =
      (checker.lookups.get? value).getD 0 + values.count value := by
  induction values generalizing checker with
  | nil => rfl
  | cons head tail ih =>
    change (((checker.addValue head).addRangeChecks tail).lookups.get? value).getD 0 = _
    rw [ih, addValue, get?_insert, count_cons]
    by_cases same : value = head
    · subst same
      cases checker.lookups.get? value <;> simp <;> omega
    · simp [same, Ne.symm same]

theorem isSome_addRangeChecks (checker : RangeChecker) (values : List U16) {value : U16}
    (known : (checker.lookups.get? value).isSome) :
    ((checker.addRangeChecks values).lookups.get? value).isSome := by
  induction values generalizing checker with
  | nil => exact known
  | cons head tail ih =>
    refine ih (checker.addValue head) ?_
    rw [addValue, get?_insert]
    split
    · rfl
    · exact known

end RangeChecker

theorem foldl_last {entries : List (U16 × Nat)} (sorted : SortedEntries entries) {count : Nat}
    (member : (u16Max, count) ∈ entries) (prevValue : Nat) :
    entries.foldl (fun _ entry => (entry.1 : Nat)) prevValue = u16Max := by
  induction entries generalizing prevValue with
  | nil => cases member
  | cons entry entries ih =>
    rcases pairwise_cons.mp sorted with ⟨ahead, others⟩
    rcases mem_cons.mp member with rfl | later
    · have none : entries = [] :=
        eq_nil_iff_forall_not_mem.mpr (fun next listed => absurd (Fin.le_last next.1) (ahead next listed).not_ge)
      rw [none]
      rfl
    · exact ih others later entry.1

/-- The lowest of ascending values comes first. -/
theorem head_of_isChain {rows : List RangeRow} (chain : (rows.map v).IsChain Allowed)
    {row : RangeRow} (member : row ∈ rows) (zero : row.v = 0) : rows.head?.map v = some 0 := by
  have ascending := (chain.imp (fun _ _ => Allowed.le)).pairwise
  cases rows with
  | nil => cases member
  | cons first rows =>
    rcases mem_cons.mp member with rfl | later
    · exact congrArg some zero
    · have low := (pairwise_cons.mp ascending).1 row.v (mem_map_of_mem later)
      exact congrArg some (le_zero.mp (zero ▸ low))

/-- A table for the given lookups. -/
structure RangeTable (values : List U16) (rows : List RangeRow) : Prop where
  first : rows.head?.map RangeRow.v = some 0
  last : rows.getLast?.map RangeRow.v = some 65535
  steps : (rows.map RangeRow.v).IsChain Allowed
  counts : forall value : U16, multiplicity value rows = values.count value

theorem emitTableRows_spec (values : List U16) :
    ∃ rows, RangeTable values rows ∧ forall rounds, 2 ^ 16 + 8 ≤ rounds ->
      (new.addRangeChecks values).emitTableRows rounds = .ok rows ∧
      (new.addRangeChecks values).getNumberRangeCheckerRows rounds = .ok rows.length := by
  have sorted := (new.addRangeChecks values).lookups.sorted
  rcases emitEntries_spec 0 sorted (fun _ _ => Nat.zero_le _) with
    ⟨rows, stop, chain, present, counts⟩
  have listed (value : U16) (known : (new.lookups.get? value).isSome) :
      ∃ count, (value, count) ∈ (new.addRangeChecks values).lookups.entries := by
    rcases Option.isSome_iff_exists.mp (isSome_addRangeChecks _ values known) with ⟨count, found⟩
    exact ⟨count, mem_entries.mpr found⟩
  rcases listed 0 (by decide) with ⟨first, atFirst⟩
  rcases listed u16Max (by decide) with ⟨last, atLast⟩
  have steps :=
    (chain [(u16Max : Nat)] (isChain_pair.mpr (.inl (foldl_last sorted atLast 0).symm))).tail
  have valid : ((rows ++ [(⟨0, u16Max⟩ : RangeRow)]).map v).IsChain Allowed := by
    rw [map_append]
    exact steps
  refine ⟨rows ++ [⟨0, u16Max⟩], ⟨?_, ?_, valid, ?_⟩, ?_⟩
  · exact head_of_isChain valid (mem_append_left _ (present _ atFirst)) rfl
  · rw [getLast?_concat]
    rfl
  · intro value
    rw [multiplicity_append, counts, multiplicity_eq_zero _ (by simp), add_zero]
    have total := get?_addRangeChecks .new values value
    have fresh : (new.lookups.get? value).getD 0 = 0 := by
      simp only [new, get?_insert]
      split <;> [rfl; split <;> rfl]
    rwa [fresh, zero_add] at total
  · intro rounds enough
    rcases stop rounds enough with ⟨emitted, counted⟩
    simp only [emitTableRows, getNumberRangeCheckerRows, emitted, counted]
    exact ⟨rfl, congrArg _ (by rw [length_append, add_comm]; rfl)⟩

/-- The emitted table has the announced number of rows, climbs from zero to the largest
16-bit value in allowed steps and counts every lookup once; the loops stop; and the
constraints admit no other values. -/
theorem range_table_complete_and_sound :
    (forall values, ∃ rows, RangeTable values rows ∧ forall rounds, 2 ^ 16 + 8 ≤ rounds ->
      (RangeChecker.new.addRangeChecks values).emitTableRows rounds = .ok rows ∧
      (RangeChecker.new.addRangeChecks values).getNumberRangeCheckerRows rounds = .ok rows.length) ∧
    (forall gap prevVal, ∃ rows : List RangeRow, forall rounds, gap + 8 < rounds ->
      writeLoop rounds gap prevVal (3 ^ 7) = .ok rows ∧
        getNumBridgeRows rounds gap = .ok rows.length) ∧
    forall rows : List (Air.RangeCols Felt), Air.Satisfies Air.enforceRange rows ->
      rows.length ≤ 2 ^ 29 -> forall row, row ∈ rows -> row.value.asCanonicalU64 < 2 ^ 16 := by
  refine ⟨emitTableRows_spec, ?_, fun rows satisfied short row member =>
    Air.value_lt_of_satisfies satisfied short member⟩
  intro gap prevVal
  rcases loops_stop gap prevVal (Nat.le_refl 8) (fun _ => by decide) with ⟨rows, stop, -, -⟩
  refine ⟨rows, fun rounds enough => ?_⟩
  rcases stop rounds enough with ⟨written, counted⟩
  exact ⟨written, (counted 0).trans (by rw [zero_add])⟩

/-- The value column of the table without lookups. -/
def emptyTable : List (Air.RangeCols Felt) :=
  ((range 30).map (2187 * ·) ++ [64152, 64881, 65124, 65367, 65448, 65529, 65532, 65535]).map
    (fun value => ⟨0, (value : Felt)⟩)

theorem range_table_complete_and_sound_empty :
    Air.Satisfies Air.enforceRange emptyTable ∧ forall row, row ∈ emptyTable ->
      row.value.asCanonicalU64 < 2 ^ 16 :=
  have satisfied := Air.satisfies_of_check (by decide +kernel)
  ⟨satisfied, range_table_complete_and_sound.2.2 emptyTable satisfied (by decide)⟩

end MidenVm.Processor
