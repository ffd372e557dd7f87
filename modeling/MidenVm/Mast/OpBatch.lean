import MidenVm.Core.Operation
import MidenVm.Foundation.Outcome

namespace MidenVm.Mast

open Foundation Outcome

/-!
# Operation batches and their accumulator

A basic block stores its operations in batches of at most eight groups.  A
group is either up to nine packed opcodes or one immediate value of a `push`.
`OpBatchAccumulator` builds a batch one operation at a time: the current
group is open at `groupIdx`, immediates of its pushes are placed in the
following groups, and `nextGroupIdx` is the first group not yet taken.
Array accesses out of range abort, as they do in the source.
-/

/-- `GROUP_SIZE`: operations per group. -/
def groupSize : Nat := 9

/-- `BATCH_SIZE`: groups per batch. -/
def batchSize : Nat := 8

/-- `usize::next_power_of_two`. -/
def nextPowerOfTwo (n : Nat) : Nat :=
  if n ≤ 1 then 1 else 2 ^ ((n - 1).log2 + 1)

/-- `usize::is_power_of_two`. -/
def isPowerOfTwo (n : Nat) : Bool := decide (0 < n) && decide (n = 2 ^ n.log2)

structure OpBatch where
  ops : List Operation
  indptr : Vector Nat 9
  padding : Vector Bool 8
  groups : Vector Felt 8
  numGroups : Nat
  deriving DecidableEq

namespace OpBatch

variable {ε : Type} (batch : OpBatch)

/-- The operations of one group without its padding NOOP. -/
def rawGroup (groupIdx : Nat) : Outcome ε (List Operation) := do
  let padded ← readAt batch.padding groupIdx
  let startIdx ← readAt batch.indptr groupIdx
  let nextIdx ← readAt batch.indptr (groupIdx + 1)
  let endIdx ← checkedSub nextIdx padded.toNat
  slice batch.ops startIdx endIdx

/-- `OpBatch::raw_ops`. -/
def rawOps : Outcome ε (List Operation) :=
  concatMap (List.range batch.numGroups) batch.rawGroup

/-- The check `validate_padding_semantics` makes of one group. -/
def checkPadding (groupIdx : Nat) : Outcome String Unit := do
  let isPadded ← okOr batch.padding[groupIdx]? s!"group {groupIdx}: missing padding metadata"
  if isPadded then
    let groupStart ← okOr batch.indptr[groupIdx]? s!"group {groupIdx}: missing indptr start"
    let groupEnd ← okOr batch.indptr[groupIdx + 1]? s!"group {groupIdx}: missing indptr end"
    ensure (groupStart ≠ groupEnd) s!"group {groupIdx}: empty group cannot be marked as padded"
    ensure (groupStart ≤ groupEnd) s!"group {groupIdx}: invalid group bounds"
    let lastOp ← okOr batch.ops[groupEnd - 1]? s!"group {groupIdx}: invalid group bounds"
    ensure (lastOp = .noop) s!"group {groupIdx}: padded group must end with NOOP"
  else ok ()

/-- `OpBatch::validate_padding_semantics`. -/
def validatePaddingSemantics : Outcome String Unit := do
  ensure (batch.numGroups ≤ batchSize)
    s!"invalid batch metadata: num_groups {batch.numGroups} exceeds BATCH_SIZE {batchSize}"
  forEach (List.range batch.numGroups) batch.checkPadding

end OpBatch

variable (batches : List OpBatch)

/-- The elements hashed for a block: the group arrays of its batches. -/
def opGroups : List Felt := batches.flatMap (fun batch => batch.groups.toList)

/-- `BasicBlockNode::operations`: everything the batches hold. -/
def operations : List Operation := batches.flatMap OpBatch.ops

/-- `BasicBlockNode::raw_operations`. -/
def rawOperations {ε : Type} : Outcome ε (List Operation) :=
  concatMap batches OpBatch.rawOps

/-- The slot of an immediate lies below the number of groups, when that is known. -/
def checkSlotCount (numGroups : Option Nat) (groupIdx : Nat) : Outcome String Unit :=
  match numGroups with
  | none => ok ()
  | some count =>
    ensure (groupIdx < count) s!"push immediate index {groupIdx} exceeds num_groups {count}"

/-- The loop of `collect_immediate_placements` over the operations of a group. -/
def placeImmediates (indptr : Vector Nat 9) (maxGroups : Nat) (numGroups : Option Nat) :
    List Operation -> Nat -> Outcome String (List (Nat × Felt) × Nat)
  | [], nextGroupIdx => ok ([], nextGroupIdx)
  | op :: rest, nextGroupIdx =>
    match op.immValue with
    | none => placeImmediates indptr maxGroups numGroups rest nextGroupIdx
    | some imm => do
        ensure (nextGroupIdx < maxGroups) "push immediate exceeds group slots"
        checkSlotCount numGroups nextGroupIdx
        let slotStart ← readAt indptr nextGroupIdx
        let slotEnd ← readAt indptr (nextGroupIdx + 1)
        ensure (slotStart = slotEnd)
          s!"push immediate overlaps operation group at index {nextGroupIdx}"
        let (placements, last) ←
          placeImmediates indptr maxGroups numGroups rest (nextGroupIdx + 1)
        ok ((nextGroupIdx, imm) :: placements, last)

/-- `collect_immediate_placements`. -/
def collectImmediatePlacements (ops : List Operation) (indptr : Vector Nat 9) (groupIdx : Nat)
    (maxGroups : Nat) (numGroups : Option Nat) : Outcome String (List (Nat × Felt) × Nat) := do
  let start ← readAt indptr groupIdx
  let stop ← readAt indptr (groupIdx + 1)
  let groupOps ← slice ops start stop
  placeImmediates indptr maxGroups numGroups groupOps (groupIdx + 1)

/-- The opcodes of a group packed into one integer, seven bits each, by the
loop `group_value |= opcode << (OP_BITS * idx)`. -/
def packFrom : Nat -> Nat -> List Operation -> Nat
  | _, value, [] => value
  | idx, value, op :: rest =>
    packFrom (idx + 1) (value ||| op.opCode <<< (Operation.opBits * idx)) rest

structure OpBatchAccumulator where
  ops : List Operation
  indptr : Vector Nat 9
  padding : Vector Bool 8
  groups : Vector Felt 8
  group : Nat
  opIdx : Nat
  groupIdx : Nat
  nextGroupIdx : Nat
  deriving DecidableEq

namespace OpBatchAccumulator

variable {ε : Type} (acc : OpBatchAccumulator) (op : Operation)

/-- `INVALID_IDX`, larger than any index into the operations of a batch. -/
def invalidIdx : Nat := batchSize * groupSize + 1

def new : OpBatchAccumulator where
  ops := []
  indptr := Vector.replicate 9 0
  padding := Vector.replicate 8 false
  groups := Vector.replicate 8 0
  group := 0
  opIdx := 0
  groupIdx := 0
  nextGroupIdx := 1

def isEmpty : Bool := acc.ops.isEmpty

/-- `can_accept_op`. -/
def canAcceptOp : Bool :=
  if op.immValue.isSome then
    if acc.opIdx < groupSize - 1 then decide (acc.nextGroupIdx < batchSize)
    else decide (acc.nextGroupIdx + 1 < batchSize)
  else decide (acc.opIdx < groupSize) || decide (acc.nextGroupIdx < batchSize)

/-- `push_op`.  The packed group stays below `2^63`, since `opIdx` is at most
eight whenever this runs. -/
def pushOp : OpBatchAccumulator :=
  { acc with
    group := acc.group ||| op.opCode <<< (Operation.opBits * acc.opIdx)
    ops := acc.ops ++ [op]
    opIdx := acc.opIdx + 1 }

/-- `pad_if_needed`. -/
def padIfNeeded : Outcome ε OpBatchAccumulator :=
  if acc.opIdx = 0 ∨ (acc.ops.getLast?.bind Operation.immValue).isSome then do
    let padding ← writeAt acc.padding acc.groupIdx true
    ok { acc.pushOp .noop with padding }
  else ok acc

/-- The `while` loop of `finalize_indptr`, walking down from `uninit`. -/
def correctIndptr (groupIdx opsLen : Nat) :
    Nat -> Vector Nat 9 -> Outcome ε (Vector Nat 9)
  | uninit, indptr =>
    if groupIdx ≤ uninit then do
      let current ← readAt indptr uninit
      if current = invalidIdx then
        let indptr ← writeAt indptr uninit opsLen
        match uninit with
        | 0 => panic
        | below + 1 => correctIndptr groupIdx opsLen below indptr
      else ok indptr
    else ok indptr

/-- `finalize_indptr`. -/
def finalizeIndptr : Outcome ε OpBatchAccumulator := do
  let indptr ← writeAt acc.indptr acc.nextGroupIdx acc.ops.length
  let uninit ← checkedSub acc.nextGroupIdx 1
  let indptr ← correctIndptr acc.groupIdx acc.ops.length uninit indptr
  ok { acc with indptr }

/-- `finalize_op_group`. -/
def finalizeOpGroup : Outcome ε OpBatchAccumulator := do
  let acc ← acc.padIfNeeded
  let groups ← writeAt acc.groups acc.groupIdx (Felt.newUnchecked acc.group)
  let acc ← finalizeIndptr { acc with groups }
  ok { acc with
    groupIdx := acc.nextGroupIdx
    nextGroupIdx := acc.nextGroupIdx + 1
    opIdx := 0
    group := 0 }

/-- The immediate-value part of `add_op`. -/
def placeImmediate (imm : Felt) : Outcome ε OpBatchAccumulator := do
  let acc ← (if acc.opIdx = groupSize - 1 then acc.finalizeOpGroup else ok acc)
  let groups ← writeAt acc.groups acc.nextGroupIdx imm
  let indptr ← writeAt acc.indptr acc.nextGroupIdx invalidIdx
  ok { acc with groups, indptr, nextGroupIdx := acc.nextGroupIdx + 1 }

/-- `add_op`. -/
def addOp : Outcome ε OpBatchAccumulator := do
  let acc ← (if acc.opIdx = groupSize then acc.finalizeOpGroup else ok acc)
  let acc ← (match op.immValue with
    | some imm => acc.placeImmediate imm
    | none => ok acc)
  ok (acc.pushOp op)

def finalizeTimes : Nat -> OpBatchAccumulator -> Outcome ε OpBatchAccumulator
  | 0, acc => ok acc
  | count + 1, acc => do
      let acc ← acc.finalizeOpGroup
      finalizeTimes count acc

/-- The loop that fills the unused tail of `indptr` with the final count. -/
def fillTail (indptr : Vector Nat 9) (start value : Nat) : Vector Nat 9 :=
  Vector.ofFn (fun index => if start ≤ index.val then value else indptr[index])

/-- `into_batch`. -/
def intoBatch : Outcome ε OpBatch := do
  let numGroups := acc.nextGroupIdx
  let acc ← finalizeTimes (nextPowerOfTwo numGroups - numGroups) acc
  let groups ← (if acc.group ≠ 0 ∨ acc.opIdx ≠ 0
    then writeAt acc.groups acc.groupIdx (Felt.newUnchecked acc.group) else ok acc.groups)
  let acc ← padIfNeeded { acc with groups }
  let acc ← acc.finalizeIndptr
  ok {
    ops := acc.ops
    indptr := fillTail acc.indptr acc.nextGroupIdx acc.ops.length
    padding := acc.padding
    groups := acc.groups
    numGroups := acc.nextGroupIdx }

end OpBatchAccumulator

/-- One iteration of the loop of `batch_ops`. -/
def batchStep {ε : Type} (state : List OpBatch × OpBatchAccumulator) (op : Operation) :
    Outcome ε (List OpBatch × OpBatchAccumulator) := do
  if state.2.canAcceptOp op then
    let acc ← state.2.addOp op
    ok (state.1, acc)
  else
    let batch ← state.2.intoBatch
    let acc ← OpBatchAccumulator.new.addOp op
    ok (state.1 ++ [batch], acc)

/-- `batch_ops`. -/
def batchOps {ε : Type} (ops : List Operation) : Outcome ε (List OpBatch) := do
  let (batches, acc) ← ops.foldlM batchStep ([], OpBatchAccumulator.new)
  if acc.isEmpty then ok batches
  else
    let batch ← acc.intoBatch
    ok (batches ++ [batch])

end MidenVm.Mast
