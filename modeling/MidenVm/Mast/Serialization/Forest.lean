import MidenVm.Mast.Serialization.Resolved

namespace MidenVm.Mast

open Foundation Outcome Parser Serde

/-!
# Writing and reading forests

The writer emits the sections in order; the hashless form leaves the node
hashes out.  Reading is deferred: a scan keeps the bytes and the layout, and
the forest is materialized from them afterwards.  Trusted readers do so at
once and refuse hashless input.  Untrusted input is validated first.
-/

/-! ## Writer -/

/-- The sections the writer collects while it goes through the nodes. -/
structure WriterState where
  basicBlockData : List UInt8
  nodeEntries : List MastNodeEntry
  externalDigests : List Word
  nodeHashes : List Word

/-- The block data with this node's operations, and the offset its entry stores. -/
def encodeNodeData {ε : Type} (blockData : List UInt8) :
    MastNode -> Outcome ε (List UInt8 × Nat)
  | .block opBatches _ => encodeBasicBlock blockData opBatches
  | _ => ok (blockData, 0)

/-- One iteration of the writer's loop over the nodes. -/
def writeNode {ε : Type} (hashless : Bool) (state : WriterState) (node : MastNode) :
    Outcome ε WriterState := do
  let (basicBlockData, opsOffset) ← encodeNodeData state.basicBlockData node
  ok {
    basicBlockData
    nodeEntries := state.nodeEntries ++ [MastNodeEntry.new node opsOffset]
    externalDigests :=
      if node.isExternal then state.externalDigests ++ [node.digest] else state.externalDigests
    nodeHashes :=
      if node.isExternal || hashless then state.nodeHashes else state.nodeHashes ++ [node.digest] }

namespace MastForest

variable (forest : MastForest)

/-- `MastForest::write_into_with_options`.  A forest that is not in dense
order aborts. -/
def writeIntoWithOptions {ε : Type} (hashless : Bool) :
    Outcome ε (List UInt8) := do
  require (validateDenseNodeOrder forest.nodes = ok ())
  let flags := if hashless then flagHashless else 0
  let nodeCount := forest.nodes.length
  let externalNodeCount := (forest.nodes.takeWhile MastNode.isExternal).length
  let internalNodeCount ← checkedSub nodeCount externalNodeCount
  let state ← forest.nodes.foldlM (writeNode hashless) ⟨[], [], [], []⟩
  let nodeEntries ← concatMap state.nodeEntries MastNodeEntry.writeInto
  ok (magic ++ ([flags] ++ (version ++
    (writeUsize internalNodeCount ++ (writeUsize externalNodeCount ++
      (writeVec writeU32 forest.roots ++
        (writeUsize state.basicBlockData.length ++ (state.basicBlockData ++ (nodeEntries ++
          (state.externalDigests.flatMap Word.writeInto ++
            (state.nodeHashes.flatMap Word.writeInto ++ forest.adviceMap.writeInto)))))))))))

/-- `Serializable::write_into`. -/
def writeInto {ε : Type} : Outcome ε (List UInt8) := forest.writeIntoWithOptions false

/-- `write_hashless_into`. -/
def writeHashlessInto {ε : Type} : Outcome ε (List UInt8) :=
  forest.writeIntoWithOptions true

end MastForest

/-! ## Readers -/

structure UntrustedMastForest where
  bytes : List UInt8
  layout : ForestLayout
  adviceMap : AdviceMap
  remainingAllocationBudget : Option Nat
  deriving DecidableEq

/-- The bytes a recording reader has kept. -/
def recorded : Reader (List UInt8) := fun source => ok (source.consumed, source)

/-- The body of `decode_from_reader_inner`, with its debug assertion. -/
def decodeTracked (allowHashless : Bool) (remainingAllocationBudget : Option Nat) :
    Reader UntrustedMastForest := do
  let layout ← readHeaderAndScanLayout allowHashless
  let offset ← position
  lift (require (offset = layout.adviceMapOffset))
  let adviceMap ← AdviceMap.readFrom
  let bytes ← recorded
  pure { bytes, layout, adviceMap, remainingAllocationBudget }

/-- `decode_from_reader_inner`: the bytes are recorded, and the offsets of the
layout counted, from where the source stands. -/
def decodeFromReaderInner (allowHashless : Bool) (remainingAllocationBudget : Option Nat) :
    Reader UntrustedMastForest :=
  (decodeTracked allowHashless remainingAllocationBudget).tracked

/-- `usize::saturating_mul`. -/
def saturatingMul (left right : Nat) : Nat := min (left * right) (usizeLimit - 1)

def trustedByteReadBudgetMultiplier : Nat := 64

def defaultUntrustedAllocationBudgetMultiplier : Nat := 7

/-- `default_untrusted_allocation_budget`. -/
def defaultUntrustedAllocationBudget (bytesLen : Nat) : Nat :=
  saturatingMul bytesLen defaultUntrustedAllocationBudgetMultiplier

def extraBytes : DeserializationError := .invalidValue "extra bytes after MastForest payload"

/-- Read all the bytes of a slice through a budgeted reader. -/
def readWhole {α : Type} (reader : Reader α) (bytes : List UInt8) (budget : Nat) :
    Outcome DeserializationError α := do
  let (value, after) ← reader (Source.new bytes (some budget))
  ensure (hasMoreBytes after = false) extraBytes
  ok value

namespace UntrustedMastForest

variable (hasher : Hasher)

/-- `UntrustedMastForest::into_materialized`. -/
def intoMaterialized (untrusted : UntrustedMastForest) :
    Outcome DeserializationError MastForest := do
  let resolved ← ResolvedSerializedForest.new hasher untrusted.bytes untrusted.layout
    untrusted.remainingAllocationBudget
  resolved.materialize hasher untrusted.adviceMap

/-- The check of the digests on the wire; there are none in a hashless payload. -/
def validateWireHashes (isHashless : Bool) (forest : MastForest) :
    Outcome MastForestError Unit :=
  if isHashless then ok () else forest.validateNodeHashes hasher

/-- `UntrustedMastForest::validate`. -/
def validate (untrusted : UntrustedMastForest) :
    Outcome MastForestError MastForest := do
  let forest ← mapErr MastForestError.deserialization (untrusted.intoMaterialized hasher)
  validateWireHashes hasher untrusted.layout.isHashless forest
  forest.validate
  ok forest

/-- `UntrustedMastForest::read_from_reader`. -/
def readFromReader : Reader UntrustedMastForest := decodeFromReaderInner true none

end UntrustedMastForest

/-- `UntrustedMastForestReadOptions`. -/
structure UntrustedMastForestReadOptions where
  wireByteBudget : Option Nat := none
  validationAllocationBudget : Option Nat := none

namespace UntrustedMastForest

/-- `UntrustedMastForest::read_from_bytes_with_options`. -/
def readFromBytesWithOptions (bytes : List UInt8) (options : UntrustedMastForestReadOptions) :
    Outcome DeserializationError UntrustedMastForest :=
  let wireByteBudget := options.wireByteBudget.getD bytes.length
  let allocationBudget := options.validationAllocationBudget.getD
    (defaultUntrustedAllocationBudget wireByteBudget)
  readWhole (decodeFromReaderInner true (some allocationBudget)) bytes wireByteBudget

/-- `UntrustedMastForest::read_from_bytes`. -/
def readFromBytes (bytes : List UInt8) : Outcome DeserializationError UntrustedMastForest :=
  readFromBytesWithOptions bytes {}

end UntrustedMastForest

namespace MastForest

/-- `MastForest::read_from`. -/
def readFrom (hasher : Hasher) : Reader MastForest := do
  let untrusted ← decodeFromReaderInner false none
  lift (untrusted.intoMaterialized hasher)

/-- `MastForest::read_from_bytes`. -/
def readFromBytes (hasher : Hasher) (bytes : List UInt8) : Outcome DeserializationError MastForest :=
  readWhole (readFrom hasher) bytes (saturatingMul bytes.length trustedByteReadBudgetMultiplier)

end MastForest

end MidenVm.Mast
