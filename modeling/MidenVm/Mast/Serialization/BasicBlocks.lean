import MidenVm.Mast.Forest

namespace MidenVm.Mast

open Foundation Outcome Parser Serde

/-!
# Basic blocks on the wire

Basic blocks are the variable-size part of the format; a node entry only
stores an offset into this section.  One block is written as the vector of its
operations, the number of its batches, four bytes of `indptr` differences per
batch and one byte of padding flags per batch.  The groups of a batch and
their number are not written: the decoder computes them from the operations.
-/

/-! ## Encoding -/

/-- `basic_block_data_len`. -/
def basicBlockDataLen (opBatches : List OpBatch) : Nat :=
  usizeEncodedLen (operations opBatches).length +
    ((operations opBatches).map Operation.encodedSize).sum + 4 + 5 * opBatches.length

variable (indptr : Vector Nat 9)

/-- The difference `pack_indptr_deltas` stores for one group. -/
def indptrDelta {ε : Type} (i : Nat) : Outcome ε Nat := do
  let here ← readAt indptr i
  let next ← readAt indptr (i + 1)
  let delta ← checkedSub next here
  require (delta ≤ 9)
  ok delta

/-- Two four-bit numbers per byte, the low half first. -/
def packNibbles : List Nat -> List UInt8
  | low :: high :: rest => UInt8.ofNat (low ||| high <<< 4) :: packNibbles rest
  | _ => []

/-- `pack_indptr_deltas`, with its debug assertions. -/
def packIndptrDeltas {ε : Type} : Outcome ε (List UInt8) := do
  let first ← readAt indptr 0
  require (first = 0)
  let deltas ← collect (List.range 8) (indptrDelta indptr)
  ok (packNibbles deltas)

/-- Flags as the bits of a number, the first one lowest. -/
def packFlags : List Bool -> Nat
  | [] => 0
  | flag :: rest => flag.toNat + 2 * packFlags rest

/-- The bytes `encode_basic_block` appends.  The number of batches is cast to
32 bits. -/
def basicBlockBytes {ε : Type} (opBatches : List OpBatch) : Outcome ε (List UInt8) := do
  let indptrs ← collect opBatches (fun batch => packIndptrDeltas batch.indptr)
  ok (writeVec Operation.writeInto (operations opBatches) ++
    (writeU32 (opBatches.length % 2 ^ 32) ++
      (indptrs.flatten ++ opBatches.map (fun batch => UInt8.ofNat (packFlags batch.padding.toList)))))

/-- `BasicBlockDataBuilder::encode_basic_block`: the data with the block
appended, and the offset of the block cast to 32 bits. -/
def encodeBasicBlock {ε : Type} (nodeData : List UInt8) (opBatches : List OpBatch) :
    Outcome ε (List UInt8 × Nat) := do
  let opsOffset := nodeData.length % 2 ^ 32
  let bytes ← basicBlockBytes opBatches
  ok (nodeData ++ bytes, opsOffset)

/-! ## Decoding -/

/-- The four-bit halves of bytes, the low half first. -/
def nibbles (packed : List UInt8) : List Nat :=
  packed.flatMap (fun byte => [byte.toNat % 16, byte.toNat / 16])

/-- `unpack_indptr_deltas`: the running sums of the differences. -/
def unpackIndptrDeltas (packed : List UInt8) : Outcome DeserializationError (Vector Nat 9) := do
  forEach (nibbles packed).zipIdx (fun (delta, i) =>
    ensure (delta ≤ groupSize) (.invalidValue
      (s!"indptr delta {delta} exceeds maximum of {groupSize} at position {i} " ++
        s!"(operation groups comprise at most {groupSize} ops)")))
  ok (Vector.ofFn (fun i => ((nibbles packed).take i.val).sum))

/-- The flags a padding byte stands for. -/
def unpackFlags (packed : UInt8) : Vector Bool 8 :=
  Vector.ofFn (fun i => packed.toNat.testBit i.val)

/-- What is read of a block before its batches are rebuilt. -/
structure BlockData where
  operations : List Operation
  indptrs : List (Vector Nat 9)
  paddings : List (Vector Bool 8)
  deriving DecidableEq

def readIndptr : Reader (Vector Nat 9) := do
  let packed ← readSlice 4
  lift (unpackIndptrDeltas packed)

def readPadding : Reader (Vector Bool 8) := do
  let packed ← readU8
  pure (unpackFlags packed)

/-- The reading half of `decode_operations`. -/
def readBlockData : Reader BlockData := do
  let operations ← readVec Operation.readFrom Operation.minSerializedSize
  let numBatches ← readU32
  checkAlloc (fun maxBatches => .invalidValue
    s!"batch count {numBatches} exceeds remaining data capacity {maxBatches}") numBatches 5
  let indptrs ← readIndptr.many numBatches
  let paddings ← readPadding.many numBatches
  pure { operations, indptrs, paddings }

/-- The last group that holds operations, counted from one; one if there is none. -/
def highestOpGroup : Nat :=
  ((List.range 8).reverse.find? (fun i =>
    decide (indptr[i]?.getD 0 < indptr[i + 1]?.getD 0))).elim 1 (· + 1)

/-- Put immediates into the groups found for them. -/
def writePlacements {ε : Type} (groups : Vector Felt 8) :
    List (Nat × Felt) -> Outcome ε (Vector Felt 8)
  | [] => ok groups
  | (immGroupIdx, immValue) :: rest => do
      let groups ← writeAt groups immGroupIdx immValue
      writePlacements groups rest

/-- One iteration of the loop that rebuilds the groups of a batch. -/
def rebuildGroup (batchOps : List Operation) (indptr : Vector Nat 9)
    (state : Vector Felt 8 × Nat) (arrayIdx : Nat) :
    Outcome DeserializationError (Vector Felt 8 × Nat) := do
  let start ← readAt indptr arrayIdx
  let stop ← readAt indptr (arrayIdx + 1)
  if start < stop then
    let groupOps ← slice batchOps start stop
    let groups ← writeAt state.1 arrayIdx (Felt.newUnchecked (packFrom 0 0 groupOps))
    let (placements, nextGroupIdx) ← mapErr DeserializationError.invalidValue
      (collectImmediatePlacements batchOps indptr arrayIdx batchSize none)
    let groups ← writePlacements groups placements
    ok (groups, nextGroupIdx)
  else ok state

/-- The groups of a batch and their number, from its operations and `indptr`. -/
def rebuildGroups (batchOps : List Operation) (indptr : Vector Nat 9) :
    Outcome DeserializationError (Vector Felt 8 × Nat) :=
  (List.range (highestOpGroup indptr)).foldlM (rebuildGroup batchOps indptr)
    (Vector.replicate 8 0, 0)

/-- One iteration of the loop of `decode_operations` over the batches. -/
def rebuildBatch (operations : List Operation) (state : List OpBatch × Nat)
    (entry : (Vector Nat 9 × Vector Bool 8) × Nat) :
    Outcome DeserializationError (List OpBatch × Nat) := do
  let ((indptr, padding), batchIdx) := entry
  let (opBatches, globalOpOffset) := state
  let batchNumOps ← readAt indptr (highestOpGroup indptr)
  let batchOpsEnd := globalOpOffset + batchNumOps
  ensure (batchOpsEnd ≤ operations.length) (.invalidValue
    s!"batch_op_end {batchOpsEnd} exceeds operations length {operations.length}")
  let batchOps ← slice operations globalOpOffset batchOpsEnd
  let (groups, numGroups) ← rebuildGroups batchOps indptr
  let opBatch : OpBatch := { ops := batchOps, indptr, padding, groups, numGroups }
  mapErr (fun error => .invalidValue s!"batch {batchIdx}: {error}")
    opBatch.validatePaddingSemantics
  ok (opBatches ++ [opBatch], batchOpsEnd)

/-- The rebuilding half of `decode_operations`. -/
def rebuildBatches (data : BlockData) : Outcome DeserializationError (List OpBatch) := do
  let (opBatches, globalOpOffset) ← (data.indptrs.zip data.paddings).zipIdx.foldlM
    (rebuildBatch data.operations) ([], 0)
  ensure (globalOpOffset = data.operations.length) (.invalidValue
    (s!"batch metadata covers {globalOpOffset} operations, " ++
      s!"but {data.operations.length} were serialized"))
  ok opBatches

/-- `BasicBlockDataDecoder::decode_operations`. -/
def decodeOperations (nodeData : List UInt8) (opsOffset : Nat) :
    Outcome DeserializationError (List OpBatch) := do
  ensure (opsOffset ≤ nodeData.length) (.invalidValue
    s!"ops_offset {opsOffset} exceeds basic_block_data length {nodeData.length}")
  let (data, _) ← readBlockData
    (Source.new (nodeData.drop opsOffset) (some (nodeData.length - opsOffset)))
  rebuildBatches data

end MidenVm.Mast
