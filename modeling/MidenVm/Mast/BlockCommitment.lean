import MidenVm.Mast.Batching

namespace MidenVm.Mast

open Foundation Outcome Nat OpBatch Operation
open List hiding Vector

/-!
# The groups of a block commit to its program text

The digest of a block hashes the group arrays of its batches, eight elements
per batch.  Nothing in these arrays says which elements are packed opcodes
and which are immediates.  `readGroups` recovers the roles from left to
right: an element that is not claimed as an immediate is an opcode group, and
the number of PUSH opcodes in it says how many of the following elements are
immediates.  For every valid batch this reading returns the operations of
the batch, up to NOOPs and error codes.  Two blocks with the same arrays are
therefore read as the same program.
-/

variable {ops : List Operation} {groupIdx : Nat} {batches : List OpBatch}

/-- What a list of operations does, as a program text: NOOPs are dropped and
error codes are forgotten. -/
def programText (ops : List Operation) : List Operation :=
  (ops.filter (fun op => decide (op ≠ .noop))).map Operation.forgetErrCode

theorem programText_append (front back : List Operation) :
    programText (front ++ back) = programText front ++ programText back := by
  simp [programText]

@[simp] theorem programText_nil : programText [] = [] := rfl

@[simp] theorem programText_noop : programText [.noop] = [] := rfl

/-! ## Reading one group -/

/-- The nonzero opcodes packed in a group element. -/
def groupCodes (value : Felt) : List Nat :=
  (Nat.digits 128 value.asCanonicalU64).filter (fun code => decide (code ≠ 0))

/-- The operations of a list of nonzero opcodes, taking immediates in order. -/
def readCodes : List Nat -> List Felt -> List Operation
  | [], _ => []
  | code :: codes, values =>
    if code = Operation.pushCode then .push (values.headD 0) :: readCodes codes values.tail
    else Operation.ofCode code :: readCodes codes values

/-- Digits of a packed list, once zeros are dropped, are its nonzero digits. -/
theorem filter_digits_ofDigits (codes : List Nat)
    (small : forall code, code ∈ codes -> code < 128) :
    (Nat.digits 128 (Nat.ofDigits 128 codes)).filter (fun code => decide (code ≠ 0)) =
      codes.filter (fun code => decide (code ≠ 0)) := by
  induction codes with
  | nil => simp
  | cons code rest ih =>
    have tailEq := ih (fun other member => small other (mem_cons_of_mem code member))
    by_cases nonzero : code ≠ 0 ∨ Nat.ofDigits 128 rest ≠ 0
    · rw [ofDigits_cons, digits_add 128 (by decide) code _
        (small code mem_cons_self) nonzero, filter_cons, filter_cons, tailEq]
    · rw [not_or, not_not, not_not] at nonzero
      rw [nonzero.2, digits_zero, filter_nil] at tailEq
      rw [ofDigits_cons, nonzero.1, nonzero.2, filter_cons, ← tailEq]
      simp

/-- The opcodes that can be read from a packed group. -/
def packedCodes (ops : List Operation) : List Nat :=
  (ops.map opCode).filter (fun code => decide (code ≠ 0))

/-- A packed group stays below the modulus, so its element keeps its opcodes. -/
theorem groupCodes_pack (short : ops.length ≤ 9) :
    groupCodes (Felt.newUnchecked (packFrom 0 0 ops)) = packedCodes ops := by
  have small : forall code, code ∈ ops.map opCode -> code < 128 := by
    intro code member
    rcases mem_map.mp member with ⟨op, -, rfl⟩
    exact op.opCode_lt
  have bounded : Nat.ofDigits 128 (ops.map opCode) < modulus := by
    have below := ofDigits_lt_base_pow_length (by decide) small
    rw [length_map] at below
    have wide : 128 ^ ops.length ≤ 128 ^ 9 := Nat.pow_le_pow_right (by decide) short
    have fits : 128 ^ 9 < modulus := by decide
    omega
  rw [groupCodes, packFrom_zero, Felt.asCanonicalU64_newUnchecked bounded,
    filter_digits_ofDigits _ small]
  rfl

theorem groupCodes_zero : groupCodes 0 = [] := by
  simp [groupCodes, Felt.asCanonicalU64]

/-- The PUSH opcodes of a group count its immediates, and reading its opcodes with
its immediates gives its text. -/
theorem readCodes_pack (ops : List Operation) :
    (packedCodes ops).count pushCode = (immediates ops).length ∧
      readCodes (packedCodes ops) (immediates ops) = programText ops := by
  induction ops with
  | nil => exact ⟨rfl, rfl⟩
  | cons op rest ih =>
    rcases ih with ⟨count, text⟩
    rw [packedCodes, map_cons, filter_cons, ← packedCodes]
    cases carried : op.immValue with
    | some value =>
      cases eq_push_of_immValue carried
      have code : (push value).opCode = pushCode := rfl
      have values : immediates (push value :: rest) = value :: immediates rest := rfl
      rw [code, if_pos (by decide), count_cons_self, count, readCodes, if_pos rfl, values,
        headD_cons, tail_cons, text]
      exact ⟨rfl, rfl⟩
    | none =>
      rw [show immediates (op :: rest) = immediates rest from filterMap_cons_none carried]
      by_cases noop : op = .noop
      · subst noop
        exact ⟨count, text⟩
      · have nonzero : op.opCode ≠ 0 := fun zero => noop (opCode_eq_zero.mp zero)
        have other : op.opCode ≠ pushCode := by
          intro same
          rw [opCode_eq_pushCode, carried] at same
          cases same
        rw [if_pos (by simpa using nonzero), count_cons_of_ne other, count, readCodes, if_neg other,
          text, ofCode_opCode carried]
        simp [programText, noop]

/-! ## Reading a batch -/

/-- Read group elements from left to right, `fuel` of them at most. -/
def readGroups : Nat -> List Felt -> List Operation
  | 0, _ => []
  | _ + 1, [] => []
  | fuel + 1, value :: rest =>
    let codes := groupCodes value
    let count := codes.count Operation.pushCode
    readCodes codes (rest.take count) ++ readGroups fuel (rest.drop count)

theorem readGroups_zeros (fuel : Nat) (values : List Felt)
    (zeros : forall value, value ∈ values -> value = 0) : readGroups fuel values = [] := by
  induction fuel generalizing values with
  | zero => rfl
  | succ fuel ih =>
    cases values with
    | nil => rfl
    | cons value rest =>
      have here : value = 0 := zeros value mem_cons_self
      have others := ih rest (fun other member => zeros other (mem_cons_of_mem value member))
      simpa [readGroups, here, groupCodes_zero, readCodes] using others

namespace OpBatch

variable (batch : OpBatch)

/-- The operations from the start of one group to the start of another. -/
def opsBetween (first last : Nat) : List Operation :=
  (batch.ops.take (batch.indptrAt last)).drop (batch.indptrAt first)

/-- The groups past the ones in use hold zero. -/
def UnusedGroupsZero : Prop :=
  forall groupIdx, batch.numGroups ≤ groupIdx -> groupIdx < 8 -> batch.groupAt groupIdx = 0

/-- Every operation of the batch lies in a group that is in use. -/
def CoversOps : Prop :=
  batch.indptrAt 0 = 0 ∧ batch.indptrAt batch.numGroups = batch.ops.length

end OpBatch

variable {batch : OpBatch}

theorem StructuredBatch.opsBetween_append (valid : StructuredBatch batch) {first steps more : Nat}
    (inRange : first + steps + more ≤ 8) :
    batch.opsBetween first (first + steps) ++
        batch.opsBetween (first + steps) (first + steps + more) =
      batch.opsBetween first (first + steps + more) := by
  have low := valid.indptrAt_le first steps (by omega)
  have high := valid.indptrAt_le (first + steps) more inRange
  have inOps := valid.indptrAt_le_length (show first + steps ≤ 8 by omega)
  have cut : batch.ops.take (batch.indptrAt (first + steps + more)) =
      batch.ops.take (batch.indptrAt (first + steps)) ++
        (batch.ops.take (batch.indptrAt (first + steps + more))).drop
          (batch.indptrAt (first + steps)) := by
    have whole := take_append_drop (batch.indptrAt (first + steps))
      (batch.ops.take (batch.indptrAt (first + steps + more)))
    rwa [take_take, Nat.min_eq_left high, eq_comm] at whole
  unfold opsBetween
  conv => rhs; rw [cut]
  rw [drop_append_of_le_length (by rw [length_take]; omega)]

theorem StructuredBatch.indptrAt_of_empty (valid : StructuredBatch batch) (first steps : Nat)
    (inRange : first + steps ≤ 8)
    (empty : forall owner, first ≤ owner -> owner < first + steps -> batch.groupOps owner = []) :
    batch.indptrAt first = batch.indptrAt (first + steps) := by
  induction steps with
  | zero => rfl
  | succ steps ih =>
    rw [ih (by omega) (fun owner above below => empty owner above (by omega))]
    exact (valid.groupOps_eq_nil (by omega)).mp (empty (first + steps) (by omega) (by omega))

/-- The groups in use, one after another. -/
theorem StructuredBatch.flatMap_groupOps (valid : StructuredBatch batch) (count : Nat)
    (inRange : count ≤ 8) :
    (List.range count).flatMap batch.groupOps = batch.opsBetween 0 count := by
  induction count with
  | zero => simp [opsBetween]
  | succ count ih =>
    have joined := @StructuredBatch.opsBetween_append batch valid 0 count 1 (by omega)
    rw [zero_add] at joined
    rw [range_succ, flatMap_append, ih (by omega), flatMap_singleton, ← joined]
    rfl

/-- Padding NOOPs do not show in the program text. -/
theorem ValidBatch.programText_rawGroupOps (valid : ValidBatch batch)
    (inRange : groupIdx < batch.numGroups) :
    programText (batch.rawGroupOps groupIdx) = programText (batch.groupOps groupIdx) := by
  unfold rawGroupOps
  split
  · rename_i flagged
    rcases getLast?_eq_some_iff.mp (valid.padded groupIdx inRange flagged) with ⟨front, shape⟩
    rw [shape, dropLast_concat, programText_append, programText_noop, append_nil]
  · rfl

/-- The text of the raw operations is the text of the groups in use. -/
theorem ValidBatch.programText_rawOps (valid : ValidBatch batch) (count : Nat)
    (inRange : count ≤ batch.numGroups) :
    programText ((List.range count).flatMap batch.rawGroupOps) =
      programText (batch.opsBetween 0 count) := by
  have inBatch := valid.numGroups_le
  rw [← valid.flatMap_groupOps count (by omega)]
  induction count with
  | zero => rfl
  | succ count ih =>
    rw [range_succ, flatMap_append, flatMap_append, programText_append,
      programText_append, ih (by omega), flatMap_singleton, flatMap_singleton,
      valid.programText_rawGroupOps (by omega)]

theorem OpBatch.groups_drop (inRange : groupIdx < 8) :
    batch.groups.toList.drop groupIdx =
      batch.groupAt groupIdx :: batch.groups.toList.drop (groupIdx + 1) := by
  rw [drop_eq_getElem_cons (by simpa using inRange)]
  congr 1
  simp [groupAt, Vector.getElem?_eq_getElem inRange]

/-- The immediates of a group are the elements right behind it. -/
theorem CommittedGroup.take_behind (committed : CommittedGroup batch groupIdx)
    (inBatch : batch.numGroups ≤ 8) :
    (batch.groups.toList.drop (groupIdx + 1)).take
      (immediates (batch.groupOps groupIdx)).length = immediates (batch.groupOps groupIdx) := by
  apply ext_getElem?
  intro j
  rw [getElem?_take]
  split
  · rename_i bound
    rcases committed.placed j _ (getElem?_eq_getElem bound) with ⟨inRange, -, value⟩
    rw [getElem?_drop, getElem?_eq_getElem bound, ← value, Vector.getElem?_toList,
      groupAt, Vector.getElem?_eq_getElem (by omega), Option.getD_some]
  · rename_i bound
    exact (getElem?_eq_none (by omega)).symm

/-- From any group that is not an immediate, the reading returns the text of
the remaining groups. -/
theorem ValidBatch.readGroups_drop (valid : ValidBatch batch) (zeros : batch.UnusedGroupsZero)
    (fuel groupIdx : Nat) (enough : 8 ≤ groupIdx + fuel) (inUse : groupIdx < batch.numGroups)
    (free : ¬ batch.IsImmediateSlot groupIdx) :
    readGroups fuel (batch.groups.toList.drop groupIdx) =
      programText (batch.opsBetween groupIdx batch.numGroups) := by
  have inBatch := valid.numGroups_le
  induction fuel generalizing groupIdx with
  | zero => omega
  | succ fuel ih =>
    have committed := valid.committed groupIdx inUse
    have codes : groupCodes (batch.groupAt groupIdx) = packedCodes (batch.groupOps groupIdx) := by
      by_cases empty : batch.groupOps groupIdx = []
      · rcases valid.emptyZero groupIdx inUse empty with slot | zero
        · exact absurd slot free
        · rw [zero, groupCodes_zero, empty]
          rfl
      · rw [committed.packed empty, groupCodes_pack (valid.wellPlaced inUse).atMostNine]
    -- the groups of the immediates hold no operations
    have behindEmpty : forall owner, groupIdx < owner ->
        owner ≤ groupIdx + (immediates (batch.groupOps groupIdx)).length ->
        owner < batch.numGroups ∧ batch.groupOps owner = [] := by
      intro owner above reach
      have bound : owner - groupIdx - 1 < (immediates (batch.groupOps groupIdx)).length := by
        omega
      have placed := committed.placed _ _ (getElem?_eq_getElem bound)
      rw [show groupIdx + 1 + (owner - groupIdx - 1) = owner by omega] at placed
      exact ⟨placed.1, placed.2.1⟩
    generalize count : (immediates (batch.groupOps groupIdx)).length = pushes at *
    have next_le : groupIdx + 1 + pushes ≤ batch.numGroups := by
      rcases Nat.eq_zero_or_pos pushes with none | some
      · omega
      · have := (behindEmpty (groupIdx + pushes) (by omega) (le_refl _)).1
        omega
    have skipped := valid.indptrAt_of_empty (groupIdx + 1) pushes (by omega)
      (fun owner above below => (behindEmpty owner (by omega) (by omega)).2)
    have pieces : batch.opsBetween groupIdx batch.numGroups = batch.groupOps groupIdx ++
        batch.opsBetween (groupIdx + 1 + pushes) batch.numGroups := by
      have joined := @StructuredBatch.opsBetween_append batch valid.toStructuredBatch groupIdx 1
        (batch.numGroups - (groupIdx + 1)) (by omega)
      rw [Nat.add_sub_cancel' (show groupIdx + 1 ≤ batch.numGroups by omega)] at joined
      rw [← joined]
      congr 1
      rw [opsBetween, opsBetween, skipped]
    have behind := committed.take_behind inBatch
    rcases readCodes_pack (batch.groupOps groupIdx) with ⟨pushCount, text⟩
    rw [groups_drop (by omega), readGroups, codes, pushCount, behind, text, drop_drop, pieces,
      programText_append, count]
    congr 1
    rcases lt_or_ge (groupIdx + 1 + pushes) batch.numGroups with more | done
    · apply ih (groupIdx + 1 + pushes) (by omega) more
      rintro ⟨owner, before, reach⟩
      rcases lt_trichotomy owner groupIdx with below | same | above
      · exact free ⟨owner, below, by omega⟩
      · rw [same, count] at reach
        omega
      · rw [(behindEmpty owner above (by omega)).2] at reach
        simp only [immediates_nil, length_nil] at reach
        omega
    · have last : groupIdx + 1 + pushes = batch.numGroups := by omega
      rw [last, readGroups_zeros]
      · simp [opsBetween]
      · intro value member
        rcases mem_iff_getElem?.mp member with ⟨index, found⟩
        rw [getElem?_drop, Vector.getElem?_toList] at found
        have bound : batch.numGroups + index < 8 := (Vector.getElem?_eq_some_iff.mp found).1
        have zero := zeros (batch.numGroups + index) (by omega) bound
        rw [groupAt, found, Option.getD_some] at zero
        exact zero

/-- The program text of a valid batch is a function of its group array. -/
theorem ValidBatch.readGroups_eq (valid : ValidBatch batch) (zeros : batch.UnusedGroupsZero)
    (inUse : 0 < batch.numGroups) :
    readGroups 8 batch.groups.toList = programText (batch.opsBetween 0 batch.numGroups) :=
  valid.readGroups_drop zeros 8 0 (by omega) inUse
    (fun ⟨_, before, _⟩ => absurd before (Nat.not_lt_zero _))

theorem BatchLayout.toBatch_unusedGroupsZero
    (layout : BatchLayout) : layout.toBatch.UnusedGroupsZero := by
  intro groupIdx unused inBatch
  have past : layout.slots[groupIdx]? = none := getElem?_eq_none unused
  simp [groupAt, toBatch, inBatch, past]

theorem batchOps_unusedGroupsZero {ε : Type}
    (run : (batchOps ops : Outcome ε (List OpBatch)) = ok batches)
    {batch : OpBatch} (member : batch ∈ batches) : batch.UnusedGroupsZero := by
  rcases @batchOps_layouts ε ops with ⟨layouts, layoutRun, -⟩
  rw [layoutRun] at run
  rw [← Outcome.ok.inj run] at member
  rcases mem_map.mp member with ⟨layout, -, rfl⟩
  exact layout.toBatch_unusedGroupsZero

/-! ## Whole blocks -/

/-- The program text read from the groups of a block, batch by batch. -/
def readBlock (batches : List OpBatch) : List Operation :=
  batches.flatMap (fun batch => readGroups 8 batch.groups.toList)

/-- Equal concatenations of eight-element arrays are equal array by array. -/
theorem readBlock_congr {left right : List OpBatch} (same : opGroups left = opGroups right) :
    readBlock left = readBlock right := by
  induction left generalizing right with
  | nil =>
    cases right with
    | nil => rfl
    | cons batch rest =>
      have lengths := congrArg List.length same
      simp [opGroups] at lengths
      omega
  | cons leftBatch leftRest ih =>
    cases right with
    | nil =>
      have lengths := congrArg List.length same
      simp [opGroups] at lengths
    | cons rightBatch rightRest =>
      have parts := append_inj same (by simp)
      have first : leftBatch.groups.toList = rightBatch.groups.toList := parts.1
      have rest : readBlock leftRest = readBlock rightRest := ih parts.2
      unfold readBlock at rest ⊢
      rw [flatMap_cons, flatMap_cons, first, rest]

/-- A valid batch is in use: eight and the powers of two are positive. -/
theorem ValidBatches.numGroups_pos {batches : List OpBatch} (valid : ValidBatches batches)
    {batch : OpBatch} (member : batch ∈ batches) : 0 < batch.numGroups := by
  rcases mem_iff_getElem?.mp member with ⟨batchIdx, found⟩
  by_cases notLast : batchIdx + 1 < batches.length
  · rw [valid.full batchIdx batch found notLast]
    decide
  · have power := valid.powerOfTwo batchIdx batch found notLast
    rw [isPowerOfTwo, Bool.and_eq_true] at power
    exact of_decide_eq_true power.1

/-- The raw operations of a valid block, and their text. -/
theorem ValidBatches.rawOperations_text {ε : Type} (valid : ValidBatches batches)
    (zeros : forall batch, batch ∈ batches -> batch.UnusedGroupsZero) :
    ∃ ops, (rawOperations batches : Outcome ε (List Operation)) = ok ops ∧
      programText ops = readBlock batches := by
  have positive := fun batch member => @ValidBatches.numGroups_pos batches valid batch member
  have each := valid.each
  clear valid
  induction batches with
  | nil => exact ⟨[], rfl, rfl⟩
  | cons batch rest ih =>
    rcases ih (fun other member => zeros other (mem_cons_of_mem batch member))
      (fun other member => positive other (mem_cons_of_mem batch member))
      (fun other member => each other (mem_cons_of_mem batch member)) with ⟨ops, run, text⟩
    have here := each batch mem_cons_self
    refine ⟨(List.range batch.numGroups).flatMap batch.rawGroupOps ++ ops, ?_, ?_⟩
    · unfold rawOperations at run ⊢
      rw [concatMap, here.rawOps_eq, ok_bind, run, ok_bind]
    · rw [programText_append, text, here.programText_rawOps _ (le_refl _),
        ← here.readGroups_eq (zeros batch mem_cons_self)
          (positive batch mem_cons_self)]
      rfl

/-- When every operation lies in a group, the text of all operations is read
from the groups as well. -/
theorem ValidBatches.operations_text (valid : ValidBatches batches)
    (zeros : forall batch, batch ∈ batches -> batch.UnusedGroupsZero)
    (covers : forall batch, batch ∈ batches -> batch.CoversOps) :
    programText (operations batches) = readBlock batches := by
  have perBatch : forall batch, batch ∈ batches ->
      programText batch.ops = readGroups 8 batch.groups.toList := by
    intro batch member
    have whole : batch.opsBetween 0 batch.numGroups = batch.ops := by
      rw [opsBetween, (covers batch member).1, (covers batch member).2, take_length, drop_zero]
    rw [(valid.each batch member).readGroups_eq (zeros batch member)
      (valid.numGroups_pos member), whole]
  clear valid zeros covers
  unfold operations readBlock
  induction batches with
  | nil => rfl
  | cons batch rest ih =>
    rw [flatMap_cons, flatMap_cons, programText_append,
      perBatch batch mem_cons_self,
      ih (fun other member => perBatch other (mem_cons_of_mem batch member))]

/-- The text of any operations is read back from the groups of their block. -/
theorem readBlock_batchOps {ε : Type} (ops : List Operation) :
    ∃ batches, (batchOps ops : Outcome ε (List OpBatch)) = ok batches ∧
      readBlock batches = programText ops := by
  rcases @batchOps_layouts ε ops with
    ⟨layouts, run, parts, full, last, rfl, eight, atMostOne, power⟩
  rcases @ValidBatches.rawOperations_text _ ε (validBatches_of_layouts eight atMostOne power)
    (fun batch member => batchOps_unusedGroupsZero run member) with ⟨found, read, text⟩
  refine ⟨_, run, text.symm.trans (congrArg programText ?_)⟩
  rw [rawOperations, concatMap_map, concatMap_eq_ok_flatMap _ (fun layout _ => BatchLayout.toBatch_rawOps), parts] at read
  exact (Outcome.ok.inj read).symm

end MidenVm.Mast
