import MidenVm.Mast.Serialization.BasicBlocks

namespace MidenVm.Mast

open Foundation Outcome Parser Serde

/-!
# Node entries

The fixed-width part of a serialized node: eight bytes that hold a tag in the
top four bits and the child ids, or the offset of a basic block, below.
Digests are in sections of their own.
-/

inductive MastNodeEntry where
  | join (leftChildId rightChildId : Nat)
  | split (ifBranchId elseBranchId : Nat)
  | loop (bodyId : Nat)
  | block (opsOffset : Nat)
  | call (calleeId : Nat)
  | sysCall (calleeId : Nat)
  | dyn
  | dyncall
  | external
  deriving DecidableEq

namespace MastNodeEntry

/-- `MastNodeEntry::SERIALIZED_SIZE`. -/
def serializedSize : Nat := 8

/-- `MastNodeEntry::new`; both callers pass offset zero for other nodes. -/
def new (node : MastNode) (opsOffset : Nat) : MastNodeEntry :=
  match node with
  | .block _ _ => block opsOffset
  | .join first second _ => join first second
  | .split onTrue onFalse _ => split onTrue onFalse
  | .loop body _ => loop body
  | .call callee isSyscall _ => if isSyscall then sysCall callee else call callee
  | .dyn isDyncall _ => if isDyncall then dyncall else dyn
  | .external _ => external

def isExternal : MastNodeEntry -> Bool
  | external => true
  | _ => false

def discriminant : MastNodeEntry -> Nat
  | join _ _ => 0
  | split _ _ => 1
  | loop _ => 2
  | block _ => 3
  | call _ => 4
  | sysCall _ => 5
  | dyn => 6
  | dyncall => 7
  | external => 8

/-- `encode_u32_pair`; a value of more than 30 bits aborts. -/
def encodeU32Pair {ε : Type} (left right : Nat) : Outcome ε Nat := do
  require (left < 2 ^ 30)
  require (right < 2 ^ 30)
  ok (left <<< 30 ||| right)

def encodePayload {ε : Type} : MastNodeEntry -> Outcome ε Nat
  | join left right => encodeU32Pair left right
  | split ifBranch elseBranch => encodeU32Pair ifBranch elseBranch
  | loop body => ok body
  | block opsOffset => ok opsOffset
  | call callee => ok callee
  | sysCall callee => ok callee
  | dyn | dyncall | external => ok 0

/-- `MastNodeEntry::write_into`. -/
def writeInto {ε : Type} (entry : MastNodeEntry) : Outcome ε (List UInt8) := do
  let payload ← entry.encodePayload
  ok (writeU64 (entry.discriminant <<< 60 ||| payload))

/-- `decode_u32_payload`. -/
def decodeU32Payload (payload : Nat) : Outcome DeserializationError Nat := do
  ensure (payload < 2 ^ 32)
    (.invalidValue s!"Invalid payload: expected to fit in u32, but was {payload}")
  ok payload

/-- An entry from the integer it is stored in. -/
def ofValue (value : Nat) : Outcome DeserializationError MastNodeEntry :=
  let discriminant := value >>> 60
  let payload := value &&& (2 ^ 60 - 1)
  match discriminant with
  | 0 => ok (join (payload >>> 30) (payload &&& (2 ^ 30 - 1)))
  | 1 => ok (split (payload >>> 30) (payload &&& (2 ^ 30 - 1)))
  | 2 => loop <$> decodeU32Payload payload
  | 3 => block <$> decodeU32Payload payload
  | 4 => call <$> decodeU32Payload payload
  | 5 => sysCall <$> decodeU32Payload payload
  | 6 => ok dyn
  | 7 => ok dyncall
  | 8 => ok external
  | _ => err (.invalidValue s!"Invalid tag for MAST node: {discriminant}")

/-- `MastNodeEntry::read_from`. -/
def readFrom : Reader MastNodeEntry := do
  let value ← readU64
  lift (ofValue value)

end MastNodeEntry

/-- `MastNodeId::from_u32_with_node_count`. -/
def nodeIdWithNodeCount (id nodeCount : Nat) : Outcome DeserializationError Nat := do
  ensure (id < nodeCount) (.invalidValue
    (s!"Invalid deserialized MAST node ID '{id}', " ++
      s!"but {nodeCount} is the number of nodes in the forest"))
  ok id

namespace MastNodeEntry

/-- `try_into_mast_node_builder`: the node a builder with a forced digest stands for. -/
def tryIntoMastNodeBuilder (entry : MastNodeEntry) (nodeCount : Nat)
    (basicBlockData : List UInt8) (digest : Word) : Outcome DeserializationError MastNode :=
  match entry with
  | block opsOffset => do
      let opBatches ← decodeOperations basicBlockData opsOffset
      ok (.block opBatches digest)
  | join leftChildId rightChildId => do
      let leftChild ← nodeIdWithNodeCount leftChildId nodeCount
      let rightChild ← nodeIdWithNodeCount rightChildId nodeCount
      ok (.join leftChild rightChild digest)
  | split ifBranchId elseBranchId => do
      let ifBranch ← nodeIdWithNodeCount ifBranchId nodeCount
      let elseBranch ← nodeIdWithNodeCount elseBranchId nodeCount
      ok (.split ifBranch elseBranch digest)
  | loop bodyId => do
      let body ← nodeIdWithNodeCount bodyId nodeCount
      ok (.loop body digest)
  | call calleeId => do
      let callee ← nodeIdWithNodeCount calleeId nodeCount
      ok (.call callee false digest)
  | sysCall calleeId => do
      let callee ← nodeIdWithNodeCount calleeId nodeCount
      ok (.call callee true digest)
  | dyn => ok (.dyn false digest)
  | dyncall => ok (.dyn true digest)
  | external => ok (.external digest)

end MastNodeEntry

def emptyBlockMessage : String := MastForestError.emptyBasicBlock.message

/-- `MastNodeBuilder::build_linked` on a builder with a digest: only a block
without batches is refused. -/
def buildLinked (node : MastNode) : Outcome DeserializationError MastNode :=
  match node with
  | .block [] _ => err (.invalidValue
      s!"failed to build node while deserializing MAST forest: {emptyBlockMessage}")
  | _ => ok node

end MidenVm.Mast
