import MidenVm.Core.Encoding
import MidenVm.Mast.BatchValidation

namespace MidenVm.Mast

open Foundation Outcome Serde

/-!
# MAST nodes and forests

A forest is a list of nodes that refer to each other by position, the roots
of its procedures, and an advice map.  A finalized forest is in dense order:
external nodes first, then basic blocks, then the other nodes, and every node
behind its children.  The checks below are the ones a forest goes through
when it is built, read or validated.

The hash functions are parameters.  The forest commitment is computed, as in
the source, but it is not a field: equality of forests ignores it.
-/

/-- The functions of the Poseidon2 hasher that the forest uses. -/
structure Hasher where
  hashElements : List Felt -> Word
  mergeInDomain : Word -> Word -> Felt -> Word
  mergeMany : List Word -> Word

/-- A node.  A `MastNodeId` is the position of a node in its forest. -/
inductive MastNode where
  | block (opBatches : List OpBatch) (digest : Word)
  | join (first second : Nat) (digest : Word)
  | split (onTrue onFalse : Nat) (digest : Word)
  | loop (body : Nat) (digest : Word)
  | call (callee : Nat) (isSyscall : Bool) (digest : Word)
  | dyn (isDyncall : Bool) (digest : Word)
  | external (digest : Word)
  deriving DecidableEq

inductive MastNodeOrderClass where
  | external | basicBlock | internal
  deriving DecidableEq

namespace MastNodeOrderClass

def rank : MastNodeOrderClass -> Nat
  | external => 0
  | basicBlock => 1
  | internal => 2

/-- The name the derived `Debug` prints. -/
def name : MastNodeOrderClass -> String
  | external => "External"
  | basicBlock => "BasicBlock"
  | internal => "Internal"

end MastNodeOrderClass

namespace MastNode

def digest : MastNode -> Word
  | block _ digest | join _ _ digest | split _ _ digest | loop _ digest | call _ _ digest
  | dyn _ digest | external digest => digest

/-- The children in the order of `for_each_child`. -/
def children : MastNode -> List Nat
  | join first second _ => [first, second]
  | split onTrue onFalse _ => [onTrue, onFalse]
  | loop body _ => [body]
  | call callee _ _ => [callee]
  | block _ _ | dyn _ _ | external _ => []

def isExternal : MastNode -> Bool
  | external _ => true
  | _ => false

def orderClass : MastNode -> MastNodeOrderClass
  | external _ => .external
  | block _ _ => .basicBlock
  | _ => .internal

end MastNode

/-! ## Digests by structure -/

def joinDomain : Felt := 87
def splitDomain : Felt := 84
def loopDomain : Felt := 85
def callDomain : Felt := 108
def syscallDomain : Felt := 104

/-- `DynNode::DYN_DEFAULT_DIGEST`. -/
def dynDefaultDigest : Word :=
  ⟨16952228088962355159, 5793482471479538911, 14446299416172848527, 13522295374716441620⟩

/-- `DynNode::DYNCALL_DEFAULT_DIGEST`. -/
def dyncallDefaultDigest : Word :=
  ⟨16830415514927835337, 12164645914672292987, 13192574193032437705, 4604554596675732269⟩

namespace Hasher

variable (hasher : Hasher)

def block (opBatches : List OpBatch) : Word := hasher.hashElements (opGroups opBatches)

def join (first second : Word) : Word := hasher.mergeInDomain first second joinDomain

def split (onTrue onFalse : Word) : Word := hasher.mergeInDomain onTrue onFalse splitDomain

def loop (body : Word) : Word := hasher.mergeInDomain body Word.zero loopDomain

def call (isSyscall : Bool) (callee : Word) : Word :=
  hasher.mergeInDomain callee Word.zero (if isSyscall then syscallDomain else callDomain)

end Hasher

def dynDigest (isDyncall : Bool) : Word :=
  if isDyncall then dyncallDefaultDigest else dynDefaultDigest

/-! ## Forests and their errors -/

structure MastForest where
  nodes : List MastNode
  roots : List Nat
  adviceMap : AdviceMap
  deriving DecidableEq

/-- `MastForest::MAX_NODES`. -/
def maxNodes : Nat := 2 ^ 30 - 1

inductive MastForestError where
  | tooManyNodes
  | nodeIdOverflow (nodeId : Nat) (length : Nat)
  | emptyBasicBlock
  | adviceMapKeyCollisionOnMerge (key : Word)
  | digestRequiredForDeserialization
  | invalidBatchPadding (nodeId : Nat) (message : String)
  | invalidNodeOrder (nodeId : Nat) (reason : String)
  | forwardReference (nodeId childId : Nat)
  | hashMismatch (nodeId : Nat) (expected computed : Word)
  | deserialization (error : DeserializationError)
  deriving DecidableEq

/-- A node id as it is printed. -/
def debugNodeId (nodeId : Nat) : String := s!"MastNodeId({nodeId})"

/-- A word as the `Debug` of the source prints it. -/
def debugWord (word : Word) : String :=
  "Word([" ++ ", ".intercalate (word.toList.map (fun felt => toString felt.asCanonicalU64)) ++ "])"

/-- `Word::to_hex`. -/
def hexWord (word : Word) : String :=
  "0x" ++ String.ofList (word.writeInto.flatMap (fun byte =>
    [Nat.digitChar (byte.toNat / 16), Nat.digitChar (byte.toNat % 16)]))

/-- The text of an error. -/
def MastForestError.message : MastForestError -> String
  | tooManyNodes => s!"MAST forest node count exceeds the maximum of {maxNodes} nodes"
  | nodeIdOverflow nodeId length =>
    s!"node id {debugNodeId nodeId} is greater than or equal to forest length {length}"
  | emptyBasicBlock => "basic block cannot be created from an empty list of operations"
  | adviceMapKeyCollisionOnMerge key =>
    s!"advice map key {hexWord key} already exists when merging forests"
  | digestRequiredForDeserialization => "digest is required for deserialization"
  | invalidBatchPadding nodeId message =>
    s!"invalid batch in basic block node {debugNodeId nodeId}: {message}"
  | invalidNodeOrder nodeId reason =>
    s!"invalid node order at {debugNodeId nodeId}: {reason}"
  | forwardReference nodeId childId =>
    s!"node {debugNodeId nodeId} references child {debugNodeId childId} " ++
      "which comes after it in the forest (forward reference)"
  | hashMismatch nodeId expected computed =>
    s!"hash mismatch for node {debugNodeId nodeId}: expected {debugWord expected}, " ++
      s!"computed {debugWord computed}"
  | deserialization error => s!"deserialization failed: {error.message}"

/-! ## Validation -/

/-- `validate_mast_forest_parts_bounds`. -/
def validateMastForestPartsBounds (parts : MastForest) : Outcome MastForestError Unit := do
  ensure (parts.nodes.length ≤ maxNodes) .tooManyNodes
  forEach parts.roots (fun rootId =>
    ensure (rootId < parts.nodes.length) (.nodeIdOverflow rootId parts.nodes.length))

/-- The digest the next external node is compared with.  External digests
must increase strictly. -/
def nextExternalDigest (previous : Option Word) (nodeId : Nat) :
    MastNode -> Outcome MastForestError (Option Word)
  | .external digest =>
    match previous with
    | none => ok (some digest)
    | some previousDigest => do
        ensure (previousDigest < digest)
          (.invalidNodeOrder nodeId "external node digests must be strictly increasing")
        ok (some digest)
  | _ => ok previous

/-- The last child that does not come before the node is reported. -/
def checkChildren (nodeId : Nat) (children : List Nat) : Outcome MastForestError Unit :=
  match (children.filter (fun childId => nodeId ≤ childId)).getLast? with
  | some childId => err (.forwardReference nodeId childId)
  | none => ok ()

/-- The loop of `validate_dense_node_order`. -/
def checkDenseNodeOrder : MastNodeOrderClass -> Option Word -> Nat -> List MastNode ->
    Outcome MastForestError Unit
  | _, _, _, [] => ok ()
  | previousClass, previousDigest, nodeId, node :: rest => do
      ensure (previousClass.rank ≤ node.orderClass.rank) (.invalidNodeOrder nodeId
        s!"node class {node.orderClass.name} appears after {previousClass.name}")
      let previousDigest ← nextExternalDigest previousDigest nodeId node
      checkChildren nodeId node.children
      checkDenseNodeOrder node.orderClass previousDigest (nodeId + 1) rest

/-- `validate_dense_node_order`. -/
def validateDenseNodeOrder (nodes : List MastNode) : Outcome MastForestError Unit :=
  checkDenseNodeOrder .external none 0 nodes

namespace MastForest

/-- `MastForest::validate`, which is `validate_basic_block_invariants`.  A
node id that does not fit in 32 bits aborts. -/
def validate (forest : MastForest) : Outcome MastForestError Unit :=
  forEach forest.nodes.zipIdx (fun (node, nodeId) => do
    require (nodeId < 2 ^ 32)
    match node with
    | .block opBatches _ =>
      mapErr (fun message => .invalidBatchPadding nodeId message)
        (validateBatchInvariants opBatches)
    | _ => ok ())

end MastForest

/-- Hash a node with one child: check the child, then look its digest up. -/
def hashChild {ε : Type} (check : Nat -> Outcome ε Unit) (digests : List Word)
    (combine : Word -> Word) (childId : Nat) : Outcome ε Word := do
  check childId
  let childDigest ← expect digests[childId]?
  ok (combine childDigest)

/-- Hash a node with two children: check both, then look their digests up. -/
def hashChildren {ε : Type} (check : Nat -> Outcome ε Unit) (digests : List Word)
    (combine : Word -> Word -> Word) (leftId rightId : Nat) : Outcome ε Word := do
  check leftId
  check rightId
  let leftDigest ← expect digests[leftId]?
  let rightDigest ← expect digests[rightId]?
  ok (combine leftDigest rightDigest)

/-- `check_no_forward_ref`. -/
def checkNoForwardRef (nodeId childId : Nat) : Outcome MastForestError Unit :=
  ensure (childId < nodeId) (.forwardReference nodeId childId)

/-- The digest `compute_node_hashes` computes for one node from those before it. -/
def computeNodeHash (hasher : Hasher) (computedHashes : List Word) (nodeId : Nat) :
    MastNode -> Outcome MastForestError Word
  | .block opBatches _ => ok (hasher.block opBatches)
  | .join first second _ =>
    hashChildren (checkNoForwardRef nodeId) computedHashes hasher.join first second
  | .split onTrue onFalse _ =>
    hashChildren (checkNoForwardRef nodeId) computedHashes hasher.split onTrue onFalse
  | .loop body _ => hashChild (checkNoForwardRef nodeId) computedHashes hasher.loop body
  | .call callee isSyscall _ =>
    hashChild (checkNoForwardRef nodeId) computedHashes (hasher.call isSyscall) callee
  | .dyn isDyncall _ => ok (dynDigest isDyncall)
  | .external digest => ok digest

def computeNodeHashStep (hasher : Hasher) (computedHashes : List Word)
    (entry : MastNode × Nat) : Outcome MastForestError (List Word) := do
  let computed ← computeNodeHash hasher computedHashes entry.2 entry.1
  ok (computedHashes ++ [computed])

namespace MastForest

/-- `MastForest::compute_node_hashes`. -/
def computeNodeHashes (hasher : Hasher) (forest : MastForest) : Outcome MastForestError (List Word) :=
  forest.nodes.zipIdx.foldlM (computeNodeHashStep hasher) []

/-- `MastForest::validate_node_hashes`. -/
def validateNodeHashes (hasher : Hasher) (forest : MastForest) :
    Outcome MastForestError Unit := do
  let computedHashes ← forest.computeNodeHashes hasher
  forEach (forest.nodes.zip computedHashes).zipIdx (fun ((node, computed), nodeId) =>
    ensure (node.digest = computed) (.hashMismatch nodeId node.digest computed))

end MastForest

/-! ## Commitment and construction from trusted parts -/

structure MastForestCommitment where
  commitment : Word
  interfaceCommitment : Word
  dependencyCommitment : Word
  adviceCommitment : Word

variable (hasher : Hasher)

/-- `compute_nodes_commitment`; a root outside the forest aborts. -/
def computeNodesCommitment {ε : Type} (nodes : List MastNode)
    (nodeIds : List Nat) : Outcome ε Word := do
  let digests ← collect nodeIds (fun nodeId => expect (nodes[nodeId]?.map MastNode.digest))
  ok (hasher.mergeMany (digests.insertionSort (· ≤ ·)))

/-- `compute_dependency_commitment`. -/
def computeDependencyCommitment (nodes : List MastNode) : Word :=
  hasher.mergeMany (((nodes.filter MastNode.isExternal).map MastNode.digest).insertionSort (· ≤ ·))

/-- `AdviceMap::commitment`. -/
def adviceCommitment (adviceMap : AdviceMap) : Word :=
  hasher.mergeMany (adviceMap.entries.map (fun entry =>
    hasher.hashElements (entry.1.toList ++ entry.2)))

/-- `compute_mast_forest_commitment`. -/
def computeMastForestCommitment {ε : Type} (parts : MastForest) :
    Outcome ε MastForestCommitment := do
  let interfaceCommitment ← computeNodesCommitment hasher parts.nodes parts.roots
  let dependencyCommitment := computeDependencyCommitment hasher parts.nodes
  let adviceCommitment := adviceCommitment hasher parts.adviceMap
  ok {
    commitment := hasher.mergeMany [interfaceCommitment, dependencyCommitment, adviceCommitment]
    interfaceCommitment
    dependencyCommitment
    adviceCommitment }

/-- `MastForest::from_trusted_deserialization_parts`. -/
def fromTrustedDeserializationParts (parts : MastForest) :
    Outcome MastForestError MastForest := do
  validateMastForestPartsBounds parts
  validateDenseNodeOrder parts.nodes
  let _ ← (computeMastForestCommitment hasher parts : Outcome MastForestError _)
  ok parts

end MidenVm.Mast
