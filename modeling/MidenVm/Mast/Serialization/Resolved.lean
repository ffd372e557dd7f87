import MidenVm.Mast.Serialization.Layout

namespace MidenVm.Mast

open Foundation Outcome Parser Serde

/-!
# Resolved digests and materialization

Between the scanned layout and a forest.  External digests have a section of
their own; the others are in the node-hash section or, when that is absent,
in a table that is rebuilt from the structure.  Either way a node's digest is
found through its slot, the number of nodes of its kind before it.
-/

/-- `ForestDigests`. -/
structure ForestDigests where
  slotByNode : List Nat
  hashTable : Option (List Word)
  deriving DecidableEq

structure ResolvedSerializedForest where
  bytes : List UInt8
  layout : ForestLayout
  digests : ForestDigests
  deriving DecidableEq

/-! ## Helper allocations -/

/-- `reserve_allocation`: what is left of the budget. -/
def reserveAllocation (elementSize remainingBudget count : Nat) (label : String) :
    Outcome DeserializationError Nat := do
  let bytesNeeded ← mulOrInvalid count elementSize s!"{label} size overflow"
  ensure (bytesNeeded ≤ remainingBudget) (.invalidValue
    (s!"{label} requires {bytesNeeded} bytes, exceeding the remaining untrusted allocation " ++
      s!"budget of {remainingBudget} bytes"))
  ok (remainingBudget - bytesNeeded)

/-- `reserve_node_capacity`; the allocation itself is taken to succeed. -/
def reserveNodeCapacity (elementSize nodeCount : Nat) (label : String) :
    Option Nat -> Outcome DeserializationError (Option Nat)
  | none => ok none
  | some remaining => some <$> reserveAllocation elementSize remaining nodeCount label

/-! ## Digest slots -/

/-- A `u32` slot counter moves on. -/
def nextSlot (slot : Nat) (message : String) : Outcome DeserializationError Nat := do
  ensure (slot + 1 < 2 ^ 32) (.invalidValue message)
  ok (slot + 1)

/-- The slots so far and the two counters. -/
structure SlotState where
  slots : List Nat
  externalSlot : Nat
  nodeHashSlot : Nat

variable (hasher : Hasher) (bytes : List UInt8) (layout : ForestLayout)
    (remainingBudget : Option Nat)

def digestSlotStep (state : SlotState) (index : Nat) : Outcome DeserializationError SlotState := do
  let entry ← layout.readNodeEntryAt bytes index
  if entry.isExternal then
    let externalSlot ← nextSlot state.externalSlot "external digest slot overflow"
    ok { state with slots := state.slots ++ [state.externalSlot], externalSlot }
  else
    let nodeHashSlot ← nextSlot state.nodeHashSlot "node hash slot overflow"
    ok { state with slots := state.slots ++ [state.nodeHashSlot], nodeHashSlot }

/-- `build_digest_slot_by_node`, with its debug assertions. -/
def buildDigestSlotByNode : Outcome DeserializationError (List Nat × Option Nat) := do
  let remainingBudget ←
    reserveNodeCapacity 4 layout.nodeCount "digest slot table" remainingBudget
  let state ← (List.range layout.nodeCount).foldlM (digestSlotStep bytes layout) ⟨[], 0, 0⟩
  require (state.nodeHashSlot = layout.internalNodeCount)
  require (state.externalSlot = layout.externalNodeCount)
  ok (state.slots, remainingBudget)

/-! ## The rebuilt table -/

/-- `read_digest_entry`. -/
def readDigestEntry (digestSectionOffset index : Nat) :
    Outcome DeserializationError Word := do
  let raw ← readFixedSectionEntry bytes digestSectionOffset Word.serializedSize index "digest"
  decodeSlice Word.readFrom raw

/-- `basic_block_data`. -/
def basicBlockData (basicBlockOffset basicBlockLen : Nat) :
    Outcome DeserializationError (List UInt8) := do
  let stop ← addOrInvalid basicBlockOffset basicBlockLen "basic-block data overflow"
  ensure (stop ≤ bytes.length) .unexpectedEof
  slice bytes basicBlockOffset stop

/-- `checked_child_index`. -/
def checkedChildIndex (parentIndex nodeCount childId : Nat) :
    Outcome DeserializationError Unit := do
  ensure (childId < nodeCount) (.invalidValue
    s!"child id {childId} out of bounds for {nodeCount} nodes")
  ensure (childId < parentIndex) (.invalidValue
    (s!"forward reference from node {parentIndex} to {childId} " ++ "(child index must be less than parent)"))

/-- The digest `recompute_hash_table` computes for a node that is not external. -/
def recomputeDigest (basicBlockData : List UInt8) (nodeCount : Nat)
    (digests : List Word) (index : Nat) : MastNodeEntry -> Outcome DeserializationError Word
  | .block opsOffset => do
      let opBatches ← decodeOperations basicBlockData opsOffset
      ok (hasher.block opBatches)
  | .join left right =>
    hashChildren (checkedChildIndex index nodeCount) digests hasher.join left right
  | .split onTrue onFalse =>
    hashChildren (checkedChildIndex index nodeCount) digests hasher.split onTrue onFalse
  | .loop body => hashChild (checkedChildIndex index nodeCount) digests hasher.loop body
  | .call callee => hashChild (checkedChildIndex index nodeCount) digests (hasher.call false) callee
  | .sysCall callee =>
    hashChild (checkedChildIndex index nodeCount) digests (hasher.call true) callee
  | .dyn | .external => ok dynDefaultDigest
  | .dyncall => ok dyncallDefaultDigest

/-- One iteration of `recompute_hash_table`: the table so far and the number
of external digests read. -/
def recomputeStep (basicBlockData : List UInt8) (state : List Word × Nat) (index : Nat) :
    Outcome DeserializationError (List Word × Nat) := do
  let entry ← layout.readNodeEntryAt bytes index
  if entry.isExternal then
    let digest ← readDigestEntry bytes layout.externalDigestOffset state.2
    let externalSlot ← addOrInvalid state.2 1 "external digest slot overflow"
    ok (state.1 ++ [digest], externalSlot)
  else
    let computed ← recomputeDigest hasher basicBlockData layout.nodeCount state.1 index entry
    ok (state.1 ++ [computed], state.2)

/-- `recompute_hash_table`. -/
def recomputeHashTable : Outcome DeserializationError (List Word) := do
  let blockData ← basicBlockData bytes layout.basicBlockOffset layout.basicBlockLen
  let _ ← reserveNodeCapacity Word.serializedSize layout.nodeCount "hash table" remainingBudget
  let state ← (List.range layout.nodeCount).foldlM
    (recomputeStep hasher bytes layout blockData) ([], 0)
  ok state.1

/-! ## Digest lookup -/

/-- The table of a payload without node hashes; nothing otherwise. -/
def rebuiltTable : Outcome DeserializationError (Option (List Word)) :=
  if layout.isHashless then some <$> recomputeHashTable hasher bytes layout remainingBudget
  else ok none

namespace ForestDigests

/-- `ForestDigests::new`. -/
def new (hasher : Hasher) (bytes : List UInt8) (layout : ForestLayout)
    (remainingBudget : Option Nat) : Outcome DeserializationError ForestDigests := do
  let (slotByNode, remainingBudget) ← buildDigestSlotByNode bytes layout remainingBudget
  let hashTable ← rebuiltTable hasher bytes layout remainingBudget
  ok { slotByNode, hashTable }

/-- The digest of a node that is not external. -/
def internalDigestAt (digests : ForestDigests) (bytes : List UInt8) (layout : ForestLayout)
    (index digestSlot : Nat) : Outcome DeserializationError Word :=
  match digests.hashTable with
  | some hashTable => okOr hashTable[index]? (.invalidValue
      s!"node index {index} out of bounds for {hashTable.length} rebuilt digests")
  | none => do
      let nodeHashOffset ← okOr layout.nodeHashOffset (.invalidValue
        "hash-backed digest lookup requested but node hash section is absent")
      readDigestEntry bytes nodeHashOffset digestSlot

/-- `ForestDigests::digest_at`. -/
def digestAt (digests : ForestDigests) (bytes : List UInt8) (layout : ForestLayout)
    (index : Nat) (entry : MastNodeEntry) : Outcome DeserializationError Word := do
  let digestSlot ← okOr digests.slotByNode[index]? (.invalidValue
    s!"node index {index} out of bounds for {digests.slotByNode.length} digest slots")
  if entry.isExternal then readDigestEntry bytes layout.externalDigestOffset digestSlot
  else digests.internalDigestAt bytes layout index digestSlot

end ForestDigests

namespace ResolvedSerializedForest

/-- `ResolvedSerializedForest::new`, and `new_with_allocation_budget` when
there is a budget. -/
def new (hasher : Hasher) (bytes : List UInt8) (layout : ForestLayout)
    (allocationBudget : Option Nat) : Outcome DeserializationError ResolvedSerializedForest := do
  let digests ← ForestDigests.new hasher bytes layout allocationBudget
  ok { bytes, layout, digests }

variable (resolved : ResolvedSerializedForest)

variable (index : Nat)

def nodeEntryAt : Outcome DeserializationError MastNodeEntry :=
  resolved.layout.readNodeEntryAt resolved.bytes index

def nodeDigestForEntry (entry : MastNodeEntry) : Outcome DeserializationError Word :=
  resolved.digests.digestAt resolved.bytes resolved.layout index entry

/-- `ResolvedSerializedForest::node_digest_at`. -/
def nodeDigestAt : Outcome DeserializationError Word := do
  let entry ← resolved.nodeEntryAt index
  resolved.nodeDigestForEntry index entry

def procedureRootAt : Outcome DeserializationError Nat :=
  resolved.layout.readProcedureRootAt resolved.bytes index

/-- One node of `materialize`.  The vector of nodes refuses to grow beyond
`u32::MAX` elements. -/
def materializeNode (blockData : List UInt8) (index : Nat) :
    Outcome DeserializationError MastNode := do
  let entry ← resolved.nodeEntryAt index
  let digest ← resolved.nodeDigestForEntry index entry
  let builder ← entry.tryIntoMastNodeBuilder resolved.layout.nodeCount blockData digest
  let node ← buildLinked builder
  ensure (index < 2 ^ 32 - 1)
    (.invalidValue "too many nodes while deserializing MAST forest")
  ok node

/-- `ResolvedSerializedForest::materialize`. -/
def materialize (hasher : Hasher) (adviceMap : AdviceMap) :
    Outcome DeserializationError MastForest := do
  let blockData ← basicBlockData resolved.bytes resolved.layout.basicBlockOffset
    resolved.layout.basicBlockLen
  let nodes ← collect (List.range resolved.layout.nodeCount) (resolved.materializeNode blockData)
  let roots ← collect (List.range resolved.layout.rootsCount) resolved.procedureRootAt
  mapErr (fun error => .invalidValue
      s!"failed to construct trusted deserialized MAST forest: {error.message}")
    (fromTrustedDeserializationParts hasher { nodes, roots, adviceMap })

end ResolvedSerializedForest

end MidenVm.Mast
