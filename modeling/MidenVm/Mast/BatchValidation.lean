import MidenVm.Mast.OpBatch

namespace MidenVm.Mast

open Foundation Outcome

/-!
# Validation of the batches of a basic block

`BasicBlockNode::validate_batch_invariants` runs five passes over the batches
of a block.  The structural pass comes before every pass that slices the
operations by `indptr`, so the later passes cannot abort.  Each pass reports
the first violation as a text that names the batch and the group.
-/

variable (batches : List OpBatch) (batchIdx : Nat) (batch : OpBatch) (groupIdx : Nat)

/-- The two bounds of a group in the operations of its batch. -/
def groupBounds {ε : Type} : Outcome ε (Nat × Nat) := do
  let groupStart ← readAt batch.indptr groupIdx
  let groupEnd ← readAt batch.indptr (groupIdx + 1)
  ok (groupStart, groupEnd)

/-- `validate_power_of_two_groups`. -/
def validatePowerOfTwoGroups : Outcome String Unit :=
  forEach batches.zipIdx (fun (batch, batchIdx) =>
    let numGroups := batch.numGroups
    if batchIdx + 1 < batches.length then
      ensure (numGroups = batchSize)
        s!"Batch {batchIdx}: {numGroups} groups is not full batch size {batchSize}"
    else
      ensure (isPowerOfTwo numGroups) s!"Batch {batchIdx}: {numGroups} groups is not power of two")

def checkMonotone (i : Nat) : Outcome String Unit := do
  let here ← readAt batch.indptr i
  let next ← readAt batch.indptr (i + 1)
  ensure (here ≤ next)
    (s!"Batch {batchIdx}: indptr[{i}] {here} > indptr[{i + 1}] {next}" ++
      " - full array not monotonic (required for serialization)")

def checkGroupSize : Outcome String Unit := do
  let (groupStart, groupEnd) ← groupBounds batch groupIdx
  let size ← checkedSub groupEnd groupStart
  ensure (size ≤ groupSize)
    (s!"Batch {batchIdx}, group {groupIdx}: contains {size} operations, " ++ s!"exceeds maximum {groupSize}")

/-- The body of `validate_batch_structure`. -/
def checkStructure : Outcome String Unit := do
  ensure (batch.numGroups ≤ batchSize)
    s!"Batch {batchIdx}: num_groups {batch.numGroups} exceeds maximum {batchSize}"
  forEach (List.range 8) (checkMonotone batchIdx batch)
  let final ← readAt batch.indptr 8
  ensure (final = batch.ops.length)
    s!"Batch {batchIdx}: final indptr value {final} doesn't match ops.len() {batch.ops.length}"
  forEach (List.range batch.numGroups) (checkGroupSize batchIdx batch)

/-- `validate_batch_structure`. -/
def validateBatchStructure : Outcome String Unit :=
  forEach batches.zipIdx (fun (batch, batchIdx) => checkStructure batchIdx batch)

/-- The check `validate_no_immediate_endings` makes of one group. -/
def checkEnding : Outcome String Unit := do
  let (groupStart, groupEnd) ← groupBounds batch groupIdx
  if groupStart = groupEnd then ok ()
  else
    let groupOps ← slice batch.ops groupStart groupEnd
    let lastGroup ← checkedSub batch.numGroups 1
    if groupIdx = lastGroup then
      forEach groupOps.zipIdx (fun (op, opIdx) =>
        ensure (op.immValue = none)
          (s!"Batch {batchIdx}, group {groupIdx}: operation at index {opIdx} requires " ++
            "immediate value, but this is the last group in batch"))
    else
      ensure (groupOps.getLast?.bind Operation.immValue = none)
        (s!"Batch {batchIdx}, group {groupIdx}: " ++ "ends with operation requiring immediate value")

/-- `validate_no_immediate_endings`. -/
def validateNoImmediateEndings : Outcome String Unit :=
  forEach batches.zipIdx (fun (batch, batchIdx) =>
    forEach (List.range batch.numGroups) (checkEnding batchIdx batch))

/-- Compare the placed immediates with the committed groups, and mark their
groups as immediate slots. -/
def markSlots (batchIdx : Nat) (groups : Vector Felt 8) :
    List (Nat × Felt) -> Vector Bool 8 -> Outcome String (Vector Bool 8)
  | [], slots => ok slots
  | (immGroupIdx, immValue) :: rest, slots => do
      let committed ← readAt groups immGroupIdx
      ensure (committed = immValue)
        s!"Batch {batchIdx}: push immediate value mismatch at index {immGroupIdx}"
      let slots ← writeAt slots immGroupIdx true
      markSlots batchIdx groups rest slots

/-- The first loop body of `validate_immediate_commitment`. -/
def checkCommitment (slots : Vector Bool 8) (groupIdx : Nat) :
    Outcome String (Vector Bool 8) := do
  let (groupStart, groupEnd) ← groupBounds batch groupIdx
  if groupStart = groupEnd then ok slots
  else
    let groupOps ← slice batch.ops groupStart groupEnd
    let committed ← readAt batch.groups groupIdx
    ensure (committed = Felt.newUnchecked (packFrom 0 0 groupOps))
      (s!"Batch {batchIdx}, group {groupIdx}: " ++ "committed opcode group does not match operations")
    let (placements, _) ← mapErr (fun error => s!"Batch {batchIdx}: {error}")
      (collectImmediatePlacements batch.ops batch.indptr groupIdx batchSize
        (some batch.numGroups))
    markSlots batchIdx batch.groups placements slots

/-- The second loop body of `validate_immediate_commitment`. -/
def checkEmptyGroup (slots : Vector Bool 8) (groupIdx : Nat) :
    Outcome String Unit := do
  let (groupStart, groupEnd) ← groupBounds batch groupIdx
  if groupStart = groupEnd then
    let isSlot ← readAt slots groupIdx
    let committed ← readAt batch.groups groupIdx
    ensure (isSlot ∨ committed = 0) s!"Batch {batchIdx}, group {groupIdx}: empty group must be zero"
  else ok ()

def checkCommitments : Outcome String Unit := do
  let slots ← (List.range batch.numGroups).foldlM (checkCommitment batchIdx batch)
    (Vector.replicate 8 false)
  forEach (List.range batch.numGroups) (checkEmptyGroup batchIdx batch slots)

/-- `validate_immediate_commitment`. -/
def validateImmediateCommitment : Outcome String Unit :=
  forEach batches.zipIdx (fun (batch, batchIdx) => checkCommitments batchIdx batch)

/-- `BasicBlockNode::validate_padding_semantics`. -/
def validatePaddingSemantics : Outcome String Unit :=
  forEach batches.zipIdx (fun (batch, batchIdx) =>
    mapErr (fun error => s!"Batch {batchIdx}: {error}") batch.validatePaddingSemantics)

/-- `BasicBlockNode::validate_batch_invariants`. -/
def validateBatchInvariants : Outcome String Unit := do
  validatePowerOfTwoGroups batches
  validateBatchStructure batches
  validateNoImmediateEndings batches
  validateImmediateCommitment batches
  validatePaddingSemantics batches

end MidenVm.Mast
