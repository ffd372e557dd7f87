import MidenVm.Mast.Serialization.Forest

namespace MidenVm.Mast

open Foundation Outcome Parser Serde

/-!
# The wire view

`MastForestWireView` answers queries from the serialized bytes without
building a forest.  Its constructor scans the same layout as the readers,
indexes the keys of the advice map with the place of their values, and checks
the dense order on the node entries.
-/

/-! ## The advice map on the wire -/

/-- `AdviceValueRange`: where the values of a key start, and how many they are. -/
structure AdviceValueRange where
  offset : Nat
  len : Nat
  deriving DecidableEq

structure WireAdviceMapView where
  bytes : List UInt8
  entries : OrderedMap Word AdviceValueRange
  endOffset : Nat
  deriving DecidableEq

def feltSerializedSize : Nat := 8

def duplicateAdviceKey : DeserializationError :=
  .invalidValue "duplicate advice key in wire payload"

namespace WireAdviceMapView

/-- One iteration of the indexing loop; the values themselves are skipped. -/
def indexEntry (offset : Nat) (entries : OrderedMap Word AdviceValueRange) :
    Reader (OrderedMap Word AdviceValueRange) := do
  let key ← Word.readFrom
  let len ← readUsize
  let position ← position
  let valueOffset ← lift (addOrInvalid offset position "advice value offset overflow")
  let valueByteLen ← lift (mulOrInvalid len feltSerializedSize "advice value length overflow")
  let _ ← readSlice valueByteLen
  lift (ensure (entries.get? key = none) duplicateAdviceKey)
  pure (entries.insert key ⟨valueOffset, len⟩)

def indexEntries (offset : Nat) :
    Nat -> OrderedMap Word AdviceValueRange -> Reader (OrderedMap Word AdviceValueRange)
  | 0, entries => pure entries
  | count + 1, entries => do
      let entries ← indexEntry offset entries
      indexEntries offset count entries

def indexAll (offset : Nat) : Reader (OrderedMap Word AdviceValueRange) := do
  let entryCount ← readUsize
  indexEntries offset entryCount OrderedMap.empty

/-- `WireAdviceMapView::new`. -/
def new (bytes : List UInt8) (offset : Nat) : Outcome DeserializationError WireAdviceMapView := do
  ensure (offset ≤ bytes.length) .unexpectedEof
  let (entries, reader) ← indexAll offset (Source.new (bytes.drop offset) none)
  let endOffset ← addOrInvalid offset reader.consumed.length "advice map offset overflow"
  ok { bytes, entries, endOffset }

/-- The values of a range. -/
def readRange (bytes : List UInt8) (range : AdviceValueRange) :
    Outcome DeserializationError (List Felt) := do
  let byteLen ← mulOrInvalid range.len feltSerializedSize "advice value length overflow"
  let stop ← addOrInvalid range.offset byteLen "advice value offset overflow"
  ensure (stop ≤ bytes.length) .unexpectedEof
  let values ← slice bytes range.offset stop
  decodeSlice (Felt.readFrom.many range.len) values

/-- `WireAdviceMapView::get`. -/
def get (view : WireAdviceMapView) (key : Word) : Outcome DeserializationError (Option (List Felt)) :=
  match view.entries.get? key with
  | none => ok none
  | some range => some <$> readRange view.bytes range

end WireAdviceMapView

/-! ## The dense order of entries -/

namespace MastNodeEntry

/-- `serialized_node_order_class`. -/
def orderClass : MastNodeEntry -> MastNodeOrderClass
  | external => .external
  | block _ => .basicBlock
  | _ => .internal

def children : MastNodeEntry -> List Nat
  | join left right => [left, right]
  | split ifBranch elseBranch => [ifBranch, elseBranch]
  | loop body => [body]
  | call callee | sysCall callee => [callee]
  | block _ | dyn | dyncall | external => []

/-- `forward_reference`: the first child that does not come before the node. -/
def forwardReference (entry : MastNodeEntry) (nodeIndex : Nat) : Option Nat :=
  entry.children.find? (fun childId => nodeIndex ≤ childId)

end MastNodeEntry

namespace ResolvedSerializedForest

variable (resolved : ResolvedSerializedForest)

/-- The digest the next external node is compared with. -/
def nextSerializedDigest (previous : Option Word)
    (index : Nat) (entry : MastNodeEntry) : Outcome DeserializationError (Option Word) :=
  if entry.isExternal then do
    let digest ← resolved.nodeDigestForEntry index entry
    ensure (forall previousDigest, previous = some previousDigest -> previousDigest < digest)
      (.invalidValue "external node digests must be strictly increasing")
    ok (some digest)
  else ok previous

/-- One iteration of `validate_dense_node_order`. -/
def denseOrderStep (state : MastNodeOrderClass × Option Word) (index : Nat) :
    Outcome DeserializationError (MastNodeOrderClass × Option Word) := do
  let entry ← resolved.nodeEntryAt index
  ensure (state.1.rank ≤ entry.orderClass.rank) (.invalidValue
    s!"node {index} is {entry.orderClass.name} after {state.1.name} in dense MAST forest")
  let digest ← resolved.nextSerializedDigest state.2 index entry
  match entry.forwardReference index with
  | some childId =>
    err (.invalidValue s!"node {index} references child {childId} which comes after it")
  | none => ok (entry.orderClass, digest)

/-- `ResolvedSerializedForest::validate_dense_node_order`. -/
def validateDenseNodeOrder :
    Outcome DeserializationError Unit := do
  let _ ← (List.range resolved.layout.nodeCount).foldlM resolved.denseOrderStep (.external, none)
  ok ()

end ResolvedSerializedForest

/-! ## The view -/

structure MastForestWireView where
  bytes : List UInt8
  layout : ForestLayout
  adviceMap : WireAdviceMapView
  deriving DecidableEq

/-- `check_no_trailing_payload`. -/
def checkNoTrailingPayload (bytes : List UInt8) (offset : Nat) :
    Outcome DeserializationError Unit := do
  ensure (offset ≤ bytes.length) .unexpectedEof
  ensure (bytes.drop offset = []) extraBytes

namespace MastForestWireView

variable (hasher : Hasher)

/-- `MastForestWireView::new`. -/
def new (bytes : List UInt8) : Outcome DeserializationError MastForestWireView := do
  let (layout, _) ← readHeaderAndScanLayout false (Source.new bytes none)
  let adviceMap ← WireAdviceMapView.new bytes layout.adviceMapOffset
  checkNoTrailingPayload bytes adviceMap.endOffset
  let resolved ← ResolvedSerializedForest.new hasher bytes layout none
  resolved.validateDenseNodeOrder
  ok { bytes, layout, adviceMap }

variable (view : MastForestWireView)

def nodeCount : Nat := view.layout.nodeCount

def procedureRootCount : Nat := view.layout.rootsCount

def procedureRootAt (index : Nat) : Outcome DeserializationError Nat :=
  view.layout.readProcedureRootAt view.bytes index

def nodeEntryAt (index : Nat) : Outcome DeserializationError MastNodeEntry :=
  view.layout.readNodeEntryAt view.bytes index

/-- `MastForestWireView::node_digest_at`; resolving the digests is cached in
the source. -/
def nodeDigestAt (index : Nat) : Outcome DeserializationError Word := do
  let resolved ← ResolvedSerializedForest.new hasher view.bytes view.layout none
  resolved.nodeDigestAt index

end MastForestWireView

end MidenVm.Mast
