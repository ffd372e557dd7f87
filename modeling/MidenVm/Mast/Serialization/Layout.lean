import MidenVm.Mast.Serialization.Info

namespace MidenVm.Mast

open Foundation Outcome Parser Serde

/-!
# The layout of a serialized forest

A scan of the structural sections that keeps counts and absolute offsets, so
that later readers can go to a root, a node entry or a digest directly.  The
same scan serves every reader; whether the counts are bounded depends on the
budget of the source it runs on.
-/

structure ForestLayout where
  nodeCount : Nat
  internalNodeCount : Nat
  externalNodeCount : Nat
  rootsCount : Nat
  rootsOffset : Nat
  basicBlockOffset : Nat
  basicBlockLen : Nat
  nodeEntryOffset : Nat
  externalDigestOffset : Nat
  nodeHashOffset : Option Nat
  adviceMapOffset : Nat
  deriving DecidableEq

/-- What is known once the counts are read and before the offsets are. -/
structure MastForestHeader where
  isHashless : Bool
  nodeCount : Nat
  internalNodeCount : Nat
  externalNodeCount : Nat
  rootsCount : Nat
  rootsOffset : Nat
  basicBlockLen : Nat
  externalDigestsLen : Nat
  nodeEntriesLen : Nat
  coreTailLen : Nat
  deriving DecidableEq

/-! ## Magic bytes, version and flags -/

def magic : List UInt8 := [0x4d, 0x41, 0x53, 0x54]

def version : List UInt8 := [0, 0, 4]

def flagHashless : UInt8 := 0x02

def flagsReservedMask : UInt8 := 0xfd

/-- Bytes as the derived `Debug` prints an array. -/
def debugBytes (bytes : List UInt8) : String := "[" ++ ", ".intercalate (bytes.map toString) ++ "]"

/-- A byte as `{:#04x}` prints it. -/
def debugHex (byte : UInt8) : String :=
  "0x" ++ String.ofList [Nat.digitChar (byte.toNat / 16), Nat.digitChar (byte.toNat % 16)]

/-- `WireFlags::is_hashless`. -/
def isHashlessFlag (flags : UInt8) : Bool := flags &&& flagHashless != 0

/-- `read_and_validate_header`; the version is fixed by the check. -/
def readAndValidateHeader : Reader UInt8 := do
  let found ← readSlice 4
  lift (ensure (found = magic) (.invalidValue
    s!"Invalid magic bytes. Expected '{debugBytes magic}', got '{debugBytes found}'"))
  let flags ← readU8
  let foundVersion ← readSlice 3
  lift (ensure (foundVersion = version) (.invalidValue
    (s!"Unsupported version. Got '{debugBytes foundVersion}', " ++
      s!"but only '{debugBytes version}' is supported")))
  lift (ensure (flags &&& flagsReservedMask = 0) (.invalidValue
    (s!"Unknown flags set in MAST header: {debugHex (flags &&& flagsReservedMask)}. " ++
      "Reserved bits must be zero.")))
  pure flags

/-! ## Counts -/

/-- Addition of machine integers with an error on overflow. -/
def addOrInvalid (left right : Nat) (message : String) : Outcome DeserializationError Nat :=
  okOr (checkedAdd left right) (.invalidValue message)

/-- Multiplication of machine integers with an error on overflow. -/
def mulOrInvalid (left right : Nat) (message : String) : Outcome DeserializationError Nat :=
  okOr (checkedMul left right) (.invalidValue message)

/-- `validate_budgeted_count`. -/
def validateBudgetedCount (count elementSize : Nat) (label : String) : Reader Unit :=
  checkAlloc (fun maxCount => .invalidValue
    (s!"{label} {count} exceeds reader allocation bound {maxCount} " ++
      s!"for {elementSize}-byte elements")) count elementSize

/-- The node hashes are only present, and only counted, without the hashless flag. -/
def validateInternalCount (isHashless : Bool) (internalNodeCount : Nat) : Reader Unit :=
  if isHashless then pure ()
  else validateBudgetedCount internalNodeCount Word.serializedSize "internal node count"

def nodeHashLength (isHashless : Bool) (internalNodeCount : Nat) : Outcome DeserializationError Nat :=
  if isHashless then ok 0
  else mulOrInvalid internalNodeCount Word.serializedSize "node hash length overflow"

/-- `MastForestHeader::read_from`. -/
def MastForestHeader.readFrom (isHashless : Bool) : Reader MastForestHeader := do
  let internalNodeCount ← readUsize
  let externalNodeCount ← readUsize
  let nodeCount ← lift (addOrInvalid internalNodeCount externalNodeCount "node count overflow")
  lift (ensure (nodeCount ≤ maxNodes) (.invalidValue
    s!"node count {nodeCount} exceeds maximum allowed {maxNodes}"))
  validateBudgetedCount nodeCount MastNodeEntry.serializedSize "node count"
  validateBudgetedCount externalNodeCount Word.serializedSize "external node count"
  validateInternalCount isHashless internalNodeCount
  let rootsCount ← readUsize
  validateBudgetedCount rootsCount 4 "root count"
  let rootsLenBytes ← lift (mulOrInvalid rootsCount 4 "roots length overflow")
  let externalDigestsLen ← lift (mulOrInvalid externalNodeCount Word.serializedSize
    "external digest length overflow")
  let nodeEntriesLen ← lift (mulOrInvalid nodeCount MastNodeEntry.serializedSize
    "node entry length overflow")
  let nodeHashLen ← lift (nodeHashLength isHashless internalNodeCount)
  let nodeDigestLen ← lift (addOrInvalid externalDigestsLen nodeHashLen
    "node digest length overflow")
  let rootsOffset ← position
  let _ ← readSlice rootsLenBytes
  let basicBlockLen ← readUsize
  let digestsEnd ← lift (addOrInvalid basicBlockLen nodeDigestLen
    "core payload length overflow")
  let coreTailLen ← lift (addOrInvalid digestsEnd nodeEntriesLen "core payload length overflow")
  validateBudgetedCount coreTailLen 1 "core payload length"
  pure {
    isHashless, nodeCount, internalNodeCount, externalNodeCount, rootsCount, rootsOffset,
    basicBlockLen, externalDigestsLen, nodeEntriesLen, coreTailLen }

/-! ## Sections -/

/-- What a reader returns on a slice of its own, without a budget. -/
def decodeSlice {α : Type} (reader : Reader α) (bytes : List UInt8) :
    Outcome DeserializationError α := do
  let (value, _) ← reader (Source.new bytes none)
  ok value

/-- `validate_node_entries`.  There are fewer entries than a counter can hold. -/
def validateNodeEntries (nodeEntries : List UInt8) (nodeCount externalNodeCount : Nat) :
    Outcome DeserializationError Unit := do
  let entries ← decodeSlice (MastNodeEntry.readFrom.many nodeCount) nodeEntries
  let countedExternals := entries.countP MastNodeEntry.isExternal
  ensure (countedExternals = externalNodeCount) (.invalidValue
    (s!"header external node count {externalNodeCount} does not match " ++
      s!"{countedExternals} external node entries"))

def nodeHashSection (isHashless : Bool) (externalDigestOffset externalDigestsLen : Nat) :
    Outcome DeserializationError (Option Nat) :=
  if isHashless then ok none
  else some <$> addOrInvalid externalDigestOffset externalDigestsLen "node hash offset overflow"

/-- `scan_layout_sections`. -/
def scanLayoutSections (header : MastForestHeader) : Reader ForestLayout := do
  let basicBlockOffset ← position
  let coreTail ← readSlice header.coreTailLen
  let nodeEntryOffset ← lift (addOrInvalid basicBlockOffset header.basicBlockLen
    "node entry offset overflow")
  let externalDigestOffset ← lift (addOrInvalid nodeEntryOffset header.nodeEntriesLen
    "external digest offset overflow")
  let nodeHashOffset ← lift (nodeHashSection header.isHashless externalDigestOffset
    header.externalDigestsLen)
  let adviceMapOffset ← lift (addOrInvalid basicBlockOffset header.coreTailLen
    "advice map offset overflow")
  let nodeEntriesEnd ← lift (addOrInvalid header.basicBlockLen header.nodeEntriesLen
    "node entries slice offset overflow")
  let nodeEntriesSlice ← lift (slice coreTail header.basicBlockLen nodeEntriesEnd)
  lift (validateNodeEntries nodeEntriesSlice header.nodeCount header.externalNodeCount)
  pure {
    nodeCount := header.nodeCount
    internalNodeCount := header.internalNodeCount
    externalNodeCount := header.externalNodeCount
    rootsCount := header.rootsCount
    rootsOffset := header.rootsOffset
    basicBlockOffset
    basicBlockLen := header.basicBlockLen
    nodeEntryOffset
    externalDigestOffset
    nodeHashOffset
    adviceMapOffset }

/-- `read_header_and_scan_layout`; the flags are kept by the layout as the
presence of the node hashes. -/
def readHeaderAndScanLayout (allowHashless : Bool) : Reader ForestLayout := do
  let flags ← readAndValidateHeader
  lift (ensure (¬ (isHashlessFlag flags = true ∧ allowHashless = false)) (.invalidValue
    "HASHLESS flag is set; use UntrustedMastForest for untrusted input"))
  let header ← MastForestHeader.readFrom (isHashlessFlag flags)
  scanLayoutSections header

/-! ## Random access -/

/-- `read_fixed_section_entry`. -/
def readFixedSectionEntry (bytes : List UInt8) (sectionOffset entrySize index : Nat)
    (sectionName : String) : Outcome DeserializationError (List UInt8) := do
  let delta ← mulOrInvalid index entrySize s!"{sectionName} offset overflow"
  let entryOffset ← addOrInvalid sectionOffset delta s!"{sectionName} offset overflow"
  let entryEnd ← addOrInvalid entryOffset entrySize s!"{sectionName} length overflow"
  ensure (entryEnd ≤ bytes.length) .unexpectedEof
  slice bytes entryOffset entryEnd

namespace ForestLayout

variable (layout : ForestLayout)

/-- `ForestLayout::is_hashless`. -/
def isHashless : Bool := layout.nodeHashOffset.isNone

/-- `read_procedure_root_at`. -/
def readProcedureRootAt (bytes : List UInt8) (index : Nat) :
    Outcome DeserializationError Nat := do
  ensure (index < layout.rootsCount) (.invalidValue
    s!"root index {index} out of bounds for {layout.rootsCount} roots")
  let raw ← readFixedSectionEntry bytes layout.rootsOffset 4 index "root"
  nodeIdWithNodeCount (fromLe raw) layout.nodeCount

/-- `read_node_entry_at`. -/
def readNodeEntryAt (bytes : List UInt8) (index : Nat) :
    Outcome DeserializationError MastNodeEntry := do
  ensure (index < layout.nodeCount) (.invalidValue
    s!"node index {index} out of bounds for {layout.nodeCount} nodes")
  let raw ← readFixedSectionEntry bytes layout.nodeEntryOffset MastNodeEntry.serializedSize index
    "node entry"
  decodeSlice MastNodeEntry.readFrom raw

end ForestLayout

end MidenVm.Mast
