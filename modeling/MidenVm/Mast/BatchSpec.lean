import MidenVm.Mast.BatchValidation

namespace MidenVm.Mast

open Foundation Outcome Nat OpBatch Operation Option
open List hiding Vector

/-!
# What a validated batch is

`ValidBatch` says in plain terms what the five validation passes ask of one
batch: where its groups lie, that a group packs its opcodes, and that the
`j`-th immediate of a group sits in the `j`-th group behind it, which holds no
operations.  `validateBatchInvariants_eq_ok` proves that the passes accept
exactly the lists of batches for which this holds, so later results use the
statement and not the code of the passes.
-/

variable {index groupIdx batchIdx start : Nat} {numGroups : Option Nat} {result : Vector Bool 8}
  {batches : List OpBatch}

/-- The immediates a list of operations needs room for, in order. -/
def immediates (ops : List Operation) : List Felt := ops.filterMap Operation.immValue

@[simp] theorem immediates_nil : immediates [] = [] := rfl

theorem immediates_append (front back : List Operation) :
    immediates (front ++ back) = immediates front ++ immediates back :=
  filterMap_append

namespace OpBatch

variable (batch : OpBatch)

def indptrAt (index : Nat) : Nat := batch.indptr[index]?.getD 0

def groupAt (groupIdx : Nat) : Felt := batch.groups[groupIdx]?.getD 0

def paddingAt (groupIdx : Nat) : Bool := batch.padding[groupIdx]?.getD false

/-- The operations of a group, padding included. -/
def groupOps (groupIdx : Nat) : List Operation :=
  (batch.ops.take (batch.indptrAt (groupIdx + 1))).drop (batch.indptrAt groupIdx)

/-- The group lies behind an operation group that has enough pushes to reach it. -/
def IsImmediateSlot (groupIdx : Nat) : Prop :=
  ∃ owner, owner < groupIdx ∧ groupIdx ≤ owner + (immediates (batch.groupOps owner)).length

variable {ε : Type}

theorem readAt_indptr (inRange : index < 9) :
    (readAt batch.indptr index : Outcome ε Nat) = ok (batch.indptrAt index) := by
  rw [readAt_of_lt _ inRange, indptrAt, Vector.getElem?_eq_getElem inRange, getD_some]

/-- Reading the two bounds of a group. -/
theorem readAt_bounds {α : Type} (inRange : groupIdx < 8) (next : Nat -> Nat -> Outcome ε α) :
    (do
      let start ← readAt batch.indptr groupIdx
      let stop ← readAt batch.indptr (groupIdx + 1)
      next start stop) = next (batch.indptrAt groupIdx) (batch.indptrAt (groupIdx + 1)) := by
  rw [batch.readAt_indptr (by omega), ok_bind, batch.readAt_indptr (by omega), ok_bind]

theorem readAt_groups (inRange : groupIdx < 8) :
    (readAt batch.groups groupIdx : Outcome ε Felt) = ok (batch.groupAt groupIdx) := by
  rw [readAt_of_lt _ inRange, groupAt, Vector.getElem?_eq_getElem inRange, getD_some]

theorem readAt_padding (inRange : groupIdx < 8) :
    (readAt batch.padding groupIdx : Outcome ε Bool) = ok (batch.paddingAt groupIdx) := by
  rw [readAt_of_lt _ inRange, paddingAt, Vector.getElem?_eq_getElem inRange, getD_some]

end OpBatch

/-- The conditions of the structural pass. -/
structure StructuredBatch (batch : OpBatch) : Prop where
  numGroups_le : batch.numGroups ≤ 8
  monotone : forall index, index < 8 -> batch.indptrAt index ≤ batch.indptrAt (index + 1)
  final : batch.indptrAt 8 = batch.ops.length
  size_le : forall groupIdx, groupIdx < batch.numGroups ->
    batch.indptrAt (groupIdx + 1) - batch.indptrAt groupIdx ≤ 9

namespace StructuredBatch

variable {batch : OpBatch} {ε : Type}

section Valid

variable (valid : StructuredBatch batch)
include valid

theorem inBatch (inRange : groupIdx < batch.numGroups) : groupIdx < 8 :=
  lt_of_lt_of_le inRange valid.numGroups_le

theorem indptrAt_le (low steps : Nat) (inRange : low + steps ≤ 8) :
    batch.indptrAt low ≤ batch.indptrAt (low + steps) := by
  induction steps with
  | zero => exact le_refl _
  | succ steps ih =>
    exact le_trans (ih (by omega)) (valid.monotone (low + steps) (by omega))

theorem indptrAt_le_length (inRange : index ≤ 8) : batch.indptrAt index ≤ batch.ops.length := by
  have upper := valid.indptrAt_le index (8 - index) (by omega)
  rwa [Nat.add_sub_cancel' inRange, valid.final] at upper

theorem length_groupOps (inRange : groupIdx < 8) :
    (batch.groupOps groupIdx).length = batch.indptrAt (groupIdx + 1) - batch.indptrAt groupIdx := by
  have upper := valid.indptrAt_le_length (show groupIdx + 1 ≤ 8 by omega)
  simp [groupOps, Nat.min_eq_left upper]

theorem groupOps_eq_nil (inRange : groupIdx < 8) :
    batch.groupOps groupIdx = [] ↔ batch.indptrAt groupIdx = batch.indptrAt (groupIdx + 1) := by
  have ordered := valid.monotone groupIdx inRange
  rw [← length_eq_zero_iff, valid.length_groupOps inRange]
  omega

theorem slice_eq_groupOps (inRange : groupIdx < 8) :
    (slice batch.ops (batch.indptrAt groupIdx) (batch.indptrAt (groupIdx + 1)) :
      Outcome ε (List Operation)) = ok (batch.groupOps groupIdx) :=
  slice_of_le _ (valid.monotone groupIdx inRange) (valid.indptrAt_le_length (by omega))

end Valid

end StructuredBatch

theorem groupBounds_of_lt {ε : Type} (batch : OpBatch) (inRange : groupIdx < 8) :
    (groupBounds batch groupIdx : Outcome ε (Nat × Nat)) =
      ok (batch.indptrAt groupIdx, batch.indptrAt (groupIdx + 1)) :=
  batch.readAt_bounds inRange _

/-! ## The structural pass -/

variable {batch : OpBatch}

theorem checkMonotone_eq_ok (inRange : index < 8) :
    checkMonotone batchIdx batch index = ok () ↔
      batch.indptrAt index ≤ batch.indptrAt (index + 1) := by
  rw [checkMonotone, batch.readAt_bounds inRange, ensure_eq_ok]

theorem checkGroupSize_eq_ok (inRange : groupIdx < 8)
    (ordered : batch.indptrAt groupIdx ≤ batch.indptrAt (groupIdx + 1)) :
    checkGroupSize batchIdx batch groupIdx = ok () ↔
      batch.indptrAt (groupIdx + 1) - batch.indptrAt groupIdx ≤ 9 := by
  simp [checkGroupSize, groupBounds_of_lt batch inRange, checkedSub_of_le ordered, groupSize]

theorem checkStructure_eq_ok : checkStructure batchIdx batch = ok () ↔ StructuredBatch batch := by
  simp only [checkStructure, bind_unit_eq_ok, ensure_eq_ok, forEach_eq_ok, mem_range,
    batch.readAt_indptr (show 8 < 9 by decide), ok_bind]
  constructor
  · rintro ⟨count, monotone, final, sizes⟩
    have ordered := fun index inRange => (checkMonotone_eq_ok inRange).mp (monotone index inRange)
    exact ⟨count, ordered, final, fun groupIdx inRange =>
      (checkGroupSize_eq_ok (lt_of_lt_of_le inRange count)
        (ordered groupIdx (lt_of_lt_of_le inRange count))).mp (sizes groupIdx inRange)⟩
  · intro valid
    exact ⟨valid.numGroups_le,
      fun index inRange => (checkMonotone_eq_ok inRange).mpr (valid.monotone index inRange),
      valid.final,
      fun groupIdx inRange => (checkGroupSize_eq_ok (valid.inBatch inRange)
        (valid.monotone groupIdx (valid.inBatch inRange))).mpr (valid.size_le groupIdx inRange)⟩

/-! ## Immediate endings -/

/-- What the ending pass asks of one group. -/
def EndsWithoutImmediate (batch : OpBatch) (groupIdx : Nat) : Prop :=
  if groupIdx = batch.numGroups - 1 then immediates (batch.groupOps groupIdx) = []
  else (batch.groupOps groupIdx).getLast?.bind Operation.immValue = none

theorem checkEnding_eq_ok (valid : StructuredBatch batch) (inRange : groupIdx < batch.numGroups) :
    checkEnding batchIdx batch groupIdx = ok () ↔ EndsWithoutImmediate batch groupIdx := by
  have inBatch := valid.inBatch inRange
  have lastGroup : (checkedSub batch.numGroups 1 : Outcome String Nat) =
      ok (batch.numGroups - 1) := checkedSub_of_le (by omega)
  have everyOp : (forall op, op ∈ batch.groupOps groupIdx -> op.immValue = none) ↔
      immediates (batch.groupOps groupIdx) = [] := by
    simp [immediates]
  unfold checkEnding EndsWithoutImmediate
  rw [groupBounds_of_lt batch inBatch]
  by_cases empty : batch.indptrAt groupIdx = batch.indptrAt (groupIdx + 1)
  · have noOps := (valid.groupOps_eq_nil inBatch).mpr empty
    simp [empty, noOps]
  · simp only [ok_bind, if_neg empty]
    rw [valid.slice_eq_groupOps inBatch, ok_bind, lastGroup, ok_bind]
    split
    · rw [forEach_eq_ok, ← everyOp]
      constructor
      · intro checked op member
        obtain ⟨opIdx, atIdx⟩ := mem_iff_getElem?.mp member
        exact ensure_eq_ok.mp (checked (op, opIdx) (mk_mem_zipIdx_iff_getElem?.mpr atIdx))
      · rintro holds ⟨op, opIdx⟩ member
        exact ensure_of (holds op (fst_mem_of_mem_zipIdx member)) _
    · rw [ensure_eq_ok]

/-! ## Placement of immediates -/

/-- Consecutive groups from `start`, paired with the immediates put there. -/
def placementsFrom (start : Nat) (values : List Felt) : List (Nat × Felt) :=
  (values.zipIdx start).map Prod.swap

@[simp] theorem placementsFrom_nil (start : Nat) : placementsFrom start [] = [] := rfl

@[simp] theorem placementsFrom_cons (start : Nat) (value : Felt) (rest : List Felt) :
    placementsFrom start (value :: rest) = (start, value) :: placementsFrom (start + 1) rest := by
  simp [placementsFrom]

/-- A group that may take an immediate: inside the batch, inside the stated
number of groups, and without operations. -/
def FreeSlot (batch : OpBatch) (numGroups : Option Nat) (groupIdx : Nat) : Prop :=
  groupIdx < 8 ∧ (forall count, numGroups = some count -> groupIdx < count) ∧
    batch.indptrAt groupIdx = batch.indptrAt (groupIdx + 1)

theorem placeImmediates_eq_ok {numGroups : Option Nat} {ops : List Operation} {start : Nat}
    {result : List (Nat × Felt) × Nat} :
    placeImmediates batch.indptr batchSize numGroups ops start = ok result ↔
      (forall j, j < (immediates ops).length -> FreeSlot batch numGroups (start + j)) ∧
        result = (placementsFrom start (immediates ops), start + (immediates ops).length) := by
  induction ops generalizing start result with
  | nil => simp [placeImmediates, eq_comm]
  | cons op rest ih =>
    unfold placeImmediates
    cases present : op.immValue with
    | none => simp only [ih, immediates, filterMap_cons_none present]
    | some imm =>
      have shape : immediates (op :: rest) = imm :: immediates rest := filterMap_cons_some present
      have bounded : checkSlotCount numGroups start = ok () ↔
          forall count, numGroups = some count -> start < count := by
        cases numGroups <;> simp [checkSlotCount]
      rw [shape, bind_unit_eq_ok, ensure_eq_ok, bind_unit_eq_ok, bounded]
      constructor
      · rintro ⟨inBatch, inCount, placed⟩
        have inRange : start < 8 := inBatch
        rw [batch.readAt_bounds inRange, bind_unit_eq_ok, ensure_eq_ok, bind_eq_ok] at placed
        obtain ⟨empty, found, more, done⟩ := placed
        obtain ⟨free, foundEq⟩ := ih.mp more
        subst foundEq
        refine ⟨fun j bound => ?_, ?_⟩
        · cases j with
          | zero => exact ⟨inRange, inCount, empty⟩
          | succ j =>
            have slot := free j (by simpa using bound)
            rwa [show start + (j + 1) = start + 1 + j by omega]
        · rw [← Outcome.ok.inj done, placementsFrom_cons, length_cons, add_assoc, add_comm 1]
      · rintro ⟨free, resultEq⟩
        obtain ⟨inRange, inCount, empty⟩ := free 0 (by simp)
        have more := (@ih (start + 1) _).mpr ⟨fun j bound => by
          have slot := free (j + 1) (by simpa using bound)
          rwa [show start + (j + 1) = start + 1 + j by omega] at slot, rfl⟩
        simp only [add_zero] at inRange inCount empty
        refine ⟨inRange, inCount, ?_⟩
        rw [batch.readAt_bounds inRange, ensure_of empty, ok_bind, more, resultEq,
          placementsFrom_cons, length_cons, add_comm (immediates rest).length, ← add_assoc]
        rfl

theorem collectImmediatePlacements_eq_ok {result : List (Nat × Felt) × Nat}
    (valid : StructuredBatch batch) (inRange : groupIdx < 8) :
    collectImmediatePlacements batch.ops batch.indptr groupIdx batchSize numGroups = ok result ↔
      (forall j, j < (immediates (batch.groupOps groupIdx)).length ->
        FreeSlot batch numGroups (groupIdx + 1 + j)) ∧
      result = (placementsFrom (groupIdx + 1) (immediates (batch.groupOps groupIdx)),
        groupIdx + 1 + (immediates (batch.groupOps groupIdx)).length) := by
  unfold collectImmediatePlacements
  rw [batch.readAt_bounds inRange, valid.slice_eq_groupOps inRange, ok_bind, placeImmediates_eq_ok]

/-! ## Commitment of groups -/

variable (slots : Vector Bool 8)

/-- Mark `count` groups from `start` as immediate slots. -/
def markRange (start count : Nat) : Vector Bool 8 :=
  Vector.ofFn (fun index => slots[index] || decide (start ≤ index.val ∧ index.val < start + count))

theorem markRange_zero (start : Nat) : markRange slots start 0 = slots := by
  ext index inRange
  have never : ¬ (start ≤ index ∧ index < start) := by omega
  simp [markRange, never]

theorem markRange_succ (count : Nat) (inRange : start < 8) :
    markRange (slots.set start true) (start + 1) count = markRange slots start (count + 1) := by
  ext index bound
  by_cases same : start = index
  · subst same
    simp [markRange]
  · have shifted : (start + 1 ≤ index ∧ index < start + 1 + count) ↔
        (start ≤ index ∧ index < start + (count + 1)) := by omega
    simp only [markRange, Vector.getElem_ofFn, Fin.getElem_fin,
      Vector.getElem_set_ne inRange bound same, decide_eq_decide.mpr shifted]

theorem markSlots_eq_ok {values : List Felt} {slots : Vector Bool 8}
    (room : start + values.length ≤ 8) :
    markSlots batchIdx batch.groups (placementsFrom start values) slots = ok result ↔
      (forall j value, values[j]? = some value -> batch.groupAt (start + j) = value) ∧
        result = markRange slots start values.length := by
  induction values generalizing start slots with
  | nil => simp [markSlots, markRange_zero, eq_comm]
  | cons value rest ih =>
    simp only [length_cons] at room
    have inRange : start < 8 := by omega
    rw [placementsFrom_cons, markSlots, batch.readAt_groups inRange, ok_bind, bind_unit_eq_ok,
      ensure_eq_ok, writeAt_of_lt _ _ inRange, ok_bind, ih (by omega),
      markRange_succ _ _ inRange, ← and_assoc]
    refine and_congr_left (fun _ => ⟨?_, ?_⟩)
    · rintro ⟨first, others⟩ j wanted found
      cases j with
      | zero => exact first.trans (some.inj found)
      | succ j =>
        rw [add_comm j, ← add_assoc]
        exact others j wanted found
    · intro all
      refine ⟨all 0 value rfl, fun j wanted found => ?_⟩
      rw [add_assoc, add_comm 1]
      exact all (j + 1) wanted found

/-- What the commitment pass asks of one group: the packed opcodes, and the
immediates in the groups behind it. -/
structure CommittedGroup (batch : OpBatch) (groupIdx : Nat) : Prop where
  packed : batch.groupOps groupIdx ≠ [] ->
    batch.groupAt groupIdx = Felt.newUnchecked (packFrom 0 0 (batch.groupOps groupIdx))
  placed : forall j value, (immediates (batch.groupOps groupIdx))[j]? = some value ->
    groupIdx + 1 + j < batch.numGroups ∧ batch.groupOps (groupIdx + 1 + j) = [] ∧
      batch.groupAt (groupIdx + 1 + j) = value

/-- Free slots for a group's immediates end inside the batch. -/
theorem slots_room {count : Nat} (inRange : groupIdx < 8)
    (free : forall j, j < count -> FreeSlot batch numGroups (groupIdx + 1 + j)) :
    groupIdx + 1 + count ≤ 8 := by
  cases count with
  | zero => omega
  | succ count =>
    have last := (free count (lt_succ_self count)).1
    omega

theorem checkCommitment_eq_ok {slots : Vector Bool 8} (valid : StructuredBatch batch)
    (inRange : groupIdx < batch.numGroups) :
    checkCommitment batchIdx batch slots groupIdx = ok result ↔
      CommittedGroup batch groupIdx ∧
        result = markRange slots (groupIdx + 1)
          (immediates (batch.groupOps groupIdx)).length := by
  have inBatch := valid.inBatch inRange
  unfold checkCommitment
  rw [groupBounds_of_lt batch inBatch]
  by_cases empty : batch.indptrAt groupIdx = batch.indptrAt (groupIdx + 1)
  · have noOps := (valid.groupOps_eq_nil inBatch).mpr empty
    have committed : CommittedGroup batch groupIdx :=
      ⟨fun absurdity => absurd noOps absurdity, fun j value found => by simp [noOps] at found⟩
    simp [empty, noOps, committed, markRange_zero, eq_comm]
  · have someOps : batch.groupOps groupIdx ≠ [] :=
      fun noOps => empty ((valid.groupOps_eq_nil inBatch).mp noOps)
    simp only [ok_bind, if_neg empty]
    rw [valid.slice_eq_groupOps inBatch, ok_bind, batch.readAt_groups inBatch, ok_bind,
      bind_unit_eq_ok, ensure_eq_ok, bind_eq_ok]
    constructor
    · rintro ⟨packed, found, collected, marked⟩
      obtain ⟨free, foundEq⟩ :=
        (collectImmediatePlacements_eq_ok valid inBatch).mp (mapErr_eq_ok.mp collected)
      subst foundEq
      have room := slots_room inBatch free
      obtain ⟨values, resultEq⟩ := (markSlots_eq_ok room).mp marked
      refine ⟨⟨fun _ => packed, fun j value atJ => ?_⟩, resultEq⟩
      have bound := (List.getElem?_eq_some_iff.mp atJ).1
      obtain ⟨slotInBatch, slotInCount, slotEmpty⟩ := free j bound
      exact ⟨slotInCount _ rfl, (valid.groupOps_eq_nil slotInBatch).mpr slotEmpty,
        values j value atJ⟩
    · rintro ⟨committed, resultEq⟩
      have free : forall j, j < (immediates (batch.groupOps groupIdx)).length ->
          FreeSlot batch (some batch.numGroups) (groupIdx + 1 + j) := by
        intro j bound
        obtain ⟨slotInCount, slotEmpty, _⟩ := committed.placed j _ (getElem?_eq_getElem bound)
        have slotInBatch := valid.inBatch slotInCount
        exact ⟨slotInBatch, fun count same => some.inj same ▸ slotInCount,
          (valid.groupOps_eq_nil slotInBatch).mp slotEmpty⟩
      refine ⟨committed.packed someOps, _, mapErr_eq_ok.mpr
        ((collectImmediatePlacements_eq_ok valid inBatch).mpr ⟨free, rfl⟩), ?_⟩
      exact (markSlots_eq_ok (slots_room inBatch free)).mpr
        ⟨fun j value atJ => (committed.placed j value atJ).2.2, resultEq⟩

open Classical in
/-- The slots marked after the groups below `count` have been visited. -/
noncomputable def markedSlots (batch : OpBatch) (count : Nat) : Vector Bool 8 :=
  Vector.ofFn (fun index => decide (∃ owner, owner < count ∧ owner < index.val ∧
    index.val ≤ owner + (immediates (batch.groupOps owner)).length))

theorem markRange_markedSlots (batch : OpBatch) (count : Nat) :
    markRange (markedSlots batch count) (count + 1)
      (immediates (batch.groupOps count)).length = markedSlots batch (count + 1) := by
  ext index bound
  simp only [markRange, markedSlots, Vector.getElem_ofFn, Fin.getElem_fin, ← Bool.decide_or]
  refine decide_eq_decide.mpr ⟨?_, ?_⟩
  · rintro (⟨owner, below, reach⟩ | reach)
    · exact ⟨owner, by omega, reach⟩
    · exact ⟨count, by omega, by omega, by omega⟩
  · rintro ⟨owner, below, reach⟩
    by_cases last : owner = count
    · subst last
      exact .inr (by omega)
    · exact .inl ⟨owner, by omega, reach⟩

/-- The first loop of the commitment pass, up to any number of groups. -/
theorem foldlM_checkCommitment_eq_ok (valid : StructuredBatch batch) (count : Nat)
    (inRange : count ≤ batch.numGroups) :
    (List.range count).foldlM (checkCommitment batchIdx batch) (Vector.replicate 8 false) =
        ok result ↔
      (forall groupIdx, groupIdx < count -> CommittedGroup batch groupIdx) ∧
        result = markedSlots batch count := by
  induction count generalizing result with
  | zero =>
    have start : Vector.replicate 8 false = markedSlots batch 0 := by
      ext index bound
      simp [markedSlots]
    simp [start, eq_comm]
  | succ count ih =>
    rw [range_succ, foldlM_append, bind_eq_ok]
    simp only [ih (le_of_succ_le inRange), foldlM_cons, foldlM_nil, pure_eq_ok,
      bind_eq_ok, checkCommitment_eq_ok valid (show count < batch.numGroups by omega)]
    constructor
    · rintro ⟨_, ⟨before, rfl⟩, _, ⟨here, rfl⟩, done⟩
      refine ⟨fun groupIdx bound => ?_, ?_⟩
      · rcases Nat.lt_succ_iff_lt_or_eq.mp bound with below | same
        · exact before groupIdx below
        · exact same ▸ here
      · rw [← Outcome.ok.inj done, markRange_markedSlots]
    · rintro ⟨all, resultEq⟩
      refine ⟨_, ⟨fun groupIdx bound => all groupIdx (by omega), rfl⟩, _,
        ⟨all count (lt_succ_self count), rfl⟩, ?_⟩
      rw [markRange_markedSlots, resultEq]

theorem checkEmptyGroup_eq_ok (valid : StructuredBatch batch)
    (inRange : groupIdx < batch.numGroups) :
    checkEmptyGroup batchIdx batch (markedSlots batch batch.numGroups) groupIdx = ok () ↔
      (batch.groupOps groupIdx = [] -> batch.IsImmediateSlot groupIdx ∨ batch.groupAt groupIdx = 0) := by
  have inBatch := valid.inBatch inRange
  have marked : (markedSlots batch batch.numGroups)[groupIdx] = true ↔
      batch.IsImmediateSlot groupIdx := by
    simp only [markedSlots, Vector.getElem_ofFn, decide_eq_true_eq, OpBatch.IsImmediateSlot]
    constructor
    · rintro ⟨owner, _, reach⟩
      exact ⟨owner, reach⟩
    · rintro ⟨owner, reach⟩
      exact ⟨owner, by omega, reach⟩
  unfold checkEmptyGroup
  rw [groupBounds_of_lt batch inBatch]
  simp only [ok_bind, valid.groupOps_eq_nil inBatch]
  split
  · rename_i empty
    rw [readAt_of_lt _ inBatch, ok_bind, batch.readAt_groups inBatch, ok_bind, ensure_eq_ok, marked]
    exact ⟨fun holds _ => holds, fun holds => holds empty⟩
  · rename_i nonempty
    exact ⟨fun _ empty => absurd empty nonempty, fun _ => rfl⟩

/-! ## Padding flags -/

theorem checkPadding_eq_ok (valid : StructuredBatch batch) (inRange : groupIdx < batch.numGroups) :
    batch.checkPadding groupIdx = ok () ↔
      (batch.paddingAt groupIdx = true -> (batch.groupOps groupIdx).getLast? = some noop) := by
  have inBatch := valid.inBatch inRange
  have ordered := valid.monotone groupIdx inBatch
  have inOps := valid.indptrAt_le_length (show groupIdx + 1 ≤ 8 by omega)
  have flag : batch.padding[groupIdx]? = some (batch.paddingAt groupIdx) := by
    rw [paddingAt, Vector.getElem?_eq_getElem inBatch, getD_some]
  have first : batch.indptr[groupIdx]? = some (batch.indptrAt groupIdx) := by
    rw [indptrAt, Vector.getElem?_eq_getElem (by omega), getD_some]
  have next : batch.indptr[groupIdx + 1]? = some (batch.indptrAt (groupIdx + 1)) := by
    rw [indptrAt, Vector.getElem?_eq_getElem (by omega), getD_some]
  unfold checkPadding
  rw [flag, okOr_some, ok_bind]
  cases batch.paddingAt groupIdx with
  | false => simp
  | true =>
    simp only [if_true, first, next, okOr_some, ok_bind, ensure_eq_ok, bind_eq_ok,
      okOr_eq_ok, forall_const]
    by_cases empty : batch.indptrAt groupIdx = batch.indptrAt (groupIdx + 1)
    · simp [empty, (valid.groupOps_eq_nil inBatch).mpr empty]
    · have last : (batch.groupOps groupIdx).getLast? =
          batch.ops[batch.indptrAt (groupIdx + 1) - 1]? := by
        rw [getLast?_eq_getElem?, valid.length_groupOps inBatch, groupOps,
          getElem?_drop, getElem?_take_of_lt (by omega)]
        congr 1
        omega
      rw [last]
      simp [empty, ordered]

/-! ## The whole validation -/

/-- A batch that every per-batch pass accepts. -/
structure ValidBatch (batch : OpBatch) : Prop extends StructuredBatch batch where
  endings : forall groupIdx, groupIdx < batch.numGroups -> EndsWithoutImmediate batch groupIdx
  committed : forall groupIdx, groupIdx < batch.numGroups -> CommittedGroup batch groupIdx
  emptyZero : forall groupIdx, groupIdx < batch.numGroups -> batch.groupOps groupIdx = [] ->
    batch.IsImmediateSlot groupIdx ∨ batch.groupAt groupIdx = 0
  padded : forall groupIdx, groupIdx < batch.numGroups -> batch.paddingAt groupIdx = true ->
    (batch.groupOps groupIdx).getLast? = some Operation.noop

namespace OpBatch

/-- The operations of a group without its padding NOOP. -/
def rawGroupOps (batch : OpBatch) (groupIdx : Nat) : List Operation :=
  if batch.paddingAt groupIdx then (batch.groupOps groupIdx).dropLast
  else batch.groupOps groupIdx

end OpBatch

theorem ValidBatch.rawGroup_eq {ε : Type} (valid : ValidBatch batch)
    (inRange : groupIdx < batch.numGroups) :
    (batch.rawGroup groupIdx : Outcome ε (List Operation)) = ok (batch.rawGroupOps groupIdx) := by
  have inBatch := valid.inBatch inRange
  have ordered := valid.monotone groupIdx inBatch
  have inOps := valid.indptrAt_le_length (show groupIdx + 1 ≤ 8 by omega)
  unfold rawGroup rawGroupOps
  rw [batch.readAt_padding inBatch, ok_bind, batch.readAt_bounds inBatch]
  cases flagged : batch.paddingAt groupIdx with
  | false =>
    rw [Bool.toNat_false, checkedSub_of_le (Nat.zero_le _), ok_bind, Nat.sub_zero]
    exact valid.slice_eq_groupOps inBatch
  | true =>
    have someOps : batch.groupOps groupIdx ≠ [] := by
      intro noOps
      have ends := valid.padded groupIdx inRange flagged
      simp [noOps] at ends
    have strict : batch.indptrAt groupIdx ≠ batch.indptrAt (groupIdx + 1) :=
      fun same => someOps ((valid.groupOps_eq_nil inBatch).mpr same)
    rw [Bool.toNat_true, checkedSub_of_le (by omega), ok_bind,
      slice_of_le _ (by omega) (by omega), if_pos rfl, dropLast_eq_take,
      valid.length_groupOps inBatch, groupOps, drop_take, drop_take,
      take_take]
    congr 2
    omega

theorem ValidBatch.rawOps_eq {ε : Type} (valid : ValidBatch batch) :
    (batch.rawOps : Outcome ε (List Operation)) =
      ok ((List.range batch.numGroups).flatMap batch.rawGroupOps) :=
  concatMap_eq_ok_flatMap _ (fun _ member => valid.rawGroup_eq (mem_range.mp member))

/-! ## Groups in arithmetic terms -/

/-- The packing loop computes the little-endian number with one 7-bit digit
per opcode. -/
theorem packFrom_eq_ofDigits (idx value : Nat) (ops : List Operation)
    (low : value < 2 ^ (opBits * idx)) :
    packFrom idx value ops = value + 2 ^ (opBits * idx) * Nat.ofDigits 128 (ops.map opCode) := by
  induction ops generalizing idx value with
  | nil => simp [packFrom]
  | cons op rest ih =>
    have digit := op.opCode_lt
    have step : value ||| op.opCode <<< (opBits * idx) =
        op.opCode * 2 ^ (opBits * idx) + value := by
      rw [Nat.or_comm, ← shiftLeft_add_eq_or_of_lt low, shiftLeft_eq]
    have wider : 2 ^ (opBits * (idx + 1)) = 128 * 2 ^ (opBits * idx) := by
      rw [mul_succ, pow_add, mul_comm]
      rfl
    have room : op.opCode * 2 ^ (opBits * idx) + value < 2 ^ (opBits * (idx + 1)) := by
      rw [wider]
      have := Nat.mul_le_mul_right (2 ^ (opBits * idx)) (le_of_lt_succ digit)
      omega
    rw [packFrom, step, ih (idx + 1) _ room, wider, map_cons, ofDigits_cons]
    ring

/-- The packing of a whole group. -/
theorem packFrom_zero (ops : List Operation) : packFrom 0 0 ops =
    Nat.ofDigits 128 (ops.map opCode) := by
  rw [packFrom_eq_ofDigits 0 0 ops (by simp)]
  simp

/-- What the documentation of a batch promises of one group. -/
structure WellPlacedGroup (batch : OpBatch) (groupIdx : Nat) : Prop where
  atMostNine : (batch.groupOps groupIdx).length ≤ 9
  noFinalPush : forall value, (batch.groupOps groupIdx).getLast? ≠ some (.push value)
  immediatesBehind : forall j value,
    (immediates (batch.groupOps groupIdx))[j]? = some value ->
      groupIdx + 1 + j < batch.numGroups ∧ batch.groupOps (groupIdx + 1 + j) = [] ∧
        batch.groupAt (groupIdx + 1 + j) = value
  packed : batch.groupOps groupIdx ≠ [] -> batch.groupAt groupIdx =
    Felt.newUnchecked (Nat.ofDigits 128 ((batch.groupOps groupIdx).map Operation.opCode))

theorem ValidBatch.wellPlaced (valid : ValidBatch batch) (inRange : groupIdx < batch.numGroups) :
    WellPlacedGroup batch groupIdx where
  atMostNine := by
    rw [valid.length_groupOps (valid.inBatch inRange)]
    exact valid.size_le groupIdx inRange
  noFinalPush := by
    intro value last
    have ending := valid.endings groupIdx inRange
    rw [EndsWithoutImmediate] at ending
    split at ending
    · have member : push value ∈ batch.groupOps groupIdx := mem_of_getLast? last
      have nothing := filterMap_eq_nil_iff.mp ending _ member
      cases nothing
    · rw [last] at ending
      cases ending
  immediatesBehind := (valid.committed groupIdx inRange).placed
  packed := fun some => by rw [(valid.committed groupIdx inRange).packed some, packFrom_zero]

/-- The batches of a block: all but the last are full, the last has a power of
two of groups, and each is valid on its own. -/
structure ValidBatches (batches : List OpBatch) : Prop where
  full : forall batchIdx batch, batches[batchIdx]? = some batch ->
    batchIdx + 1 < batches.length -> batch.numGroups = batchSize
  powerOfTwo : forall batchIdx batch, batches[batchIdx]? = some batch ->
    ¬ batchIdx + 1 < batches.length -> isPowerOfTwo batch.numGroups = true
  each : forall batch, batch ∈ batches -> ValidBatch batch

theorem validatePowerOfTwoGroups_eq_ok :
    validatePowerOfTwoGroups batches = ok () ↔
      forall batchIdx batch, batches[batchIdx]? = some batch ->
        (batchIdx + 1 < batches.length -> batch.numGroups = batchSize) ∧
        (¬ batchIdx + 1 < batches.length -> isPowerOfTwo batch.numGroups = true) := by
  rw [validatePowerOfTwoGroups, forEach_zipIdx_eq_ok]
  refine forall_congr' (fun batchIdx => forall_congr' (fun batch => imp_congr_right (fun _ => ?_)))
  dsimp only
  split <;> simp_all

theorem checkCommitments_eq_ok (valid : StructuredBatch batch) :
    checkCommitments batchIdx batch = ok () ↔
      (forall groupIdx, groupIdx < batch.numGroups -> CommittedGroup batch groupIdx) ∧
      (forall groupIdx, groupIdx < batch.numGroups -> batch.groupOps groupIdx = [] ->
        batch.IsImmediateSlot groupIdx ∨ batch.groupAt groupIdx = 0) := by
  simp only [checkCommitments, bind_eq_ok,
    foldlM_checkCommitment_eq_ok valid batch.numGroups (le_refl _), and_assoc,
    exists_and_left, exists_eq_left, forEach_eq_ok, mem_range]
  refine and_congr_right (fun _ => forall_congr' (fun groupIdx => ?_))
  exact ⟨fun checked bound => (checkEmptyGroup_eq_ok valid bound).mp (checked bound),
    fun holds bound => (checkEmptyGroup_eq_ok valid bound).mpr (holds bound)⟩

theorem OpBatch.validatePaddingSemantics_eq_ok (valid : StructuredBatch batch) :
    batch.validatePaddingSemantics = ok () ↔
      forall groupIdx, groupIdx < batch.numGroups -> batch.paddingAt groupIdx = true ->
        (batch.groupOps groupIdx).getLast? = some Operation.noop := by
  rw [OpBatch.validatePaddingSemantics, bind_unit_eq_ok, ensure_eq_ok, forEach_eq_ok]
  simp only [mem_range]
  constructor
  · rintro ⟨_, checked⟩ groupIdx bound
    exact (checkPadding_eq_ok valid bound).mp (checked groupIdx bound)
  · intro holds
    exact ⟨valid.numGroups_le,
      fun groupIdx bound => (checkPadding_eq_ok valid bound).mpr (holds groupIdx bound)⟩

/-- The validation accepts exactly the valid lists of batches. -/
theorem validateBatchInvariants_eq_ok : validateBatchInvariants batches = ok () ↔
    ValidBatches batches := by
  simp only [validateBatchInvariants, bind_unit_eq_ok, validatePowerOfTwoGroups_eq_ok,
    validateBatchStructure, validateNoImmediateEndings, validateImmediateCommitment,
    validatePaddingSemantics, forEach_zipIdx_eq_ok, checkStructure_eq_ok, mapErr_eq_ok]
  constructor
  · rintro ⟨counts, structured, endings, commitments, paddings⟩
    refine ⟨fun batchIdx batch found => (counts batchIdx batch found).1,
      fun batchIdx batch found => (counts batchIdx batch found).2, fun batch member => ?_⟩
    obtain ⟨batchIdx, found⟩ := mem_iff_getElem?.mp member
    have valid := structured batchIdx batch found
    have committed := (checkCommitments_eq_ok valid).mp (commitments batchIdx batch found)
    have ends := forEach_eq_ok.mp (endings batchIdx batch found)
    exact {
      valid with
      endings := fun groupIdx bound =>
        (checkEnding_eq_ok valid bound).mp (ends groupIdx (mem_range.mpr bound))
      committed := committed.1
      emptyZero := committed.2
      padded := (validatePaddingSemantics_eq_ok valid).mp (paddings batchIdx batch found) }
  · intro valid
    have each {batchIdx batch} (found : batches[batchIdx]? = some batch) :=
      valid.each batch (mem_of_getElem? found)
    refine ⟨fun batchIdx batch found =>
        ⟨valid.full batchIdx batch found, valid.powerOfTwo batchIdx batch found⟩,
      fun batchIdx batch found => (each found).toStructuredBatch,
      fun batchIdx batch found => forEach_eq_ok.mpr (fun groupIdx member => ?_),
      fun batchIdx batch found => ?_, fun batchIdx batch found => ?_⟩
    · exact (checkEnding_eq_ok (each found).toStructuredBatch
        (mem_range.mp member)).mpr
          ((each found).endings groupIdx (mem_range.mp member))
    · exact (checkCommitments_eq_ok (each found).toStructuredBatch).mpr
        ⟨(each found).committed, (each found).emptyZero⟩
    · exact (validatePaddingSemantics_eq_ok
        (each found).toStructuredBatch).mpr (each found).padded

end MidenVm.Mast
