import MidenVm.Mast.Serialization.Forest
import MidenVm.Mast.Serialization.ResolvedSpec

namespace MidenVm.Mast

open Foundation Outcome Parser Serde List MastNodeEntry Reads

/-!
# What the writer produces

The bytes of a forest as the concatenation of its sections, and where in them
a reader finds the layout, the entries, the digests and the roots.  The
statements hold for every forest in dense order whose blocks are canonical,
with or without node hashes.
-/

/-! ## The sections of a forest -/

variable {internalNodeCount : Nat} (nodes : List MastNode)

/-- What a node adds to the block data. -/
def MastNode.blockData : MastNode -> List UInt8
  | .block opBatches _ => blockBytes opBatches
  | _ => []

/-- The block data of a forest. -/
def blockSection : List UInt8 := nodes.flatMap MastNode.blockData

/-- The entries of nodes whose block data starts at `offset`.  The offset of a
block is stored in 32 bits. -/
def entriesFrom (offset : Nat) : List MastNode -> List MastNodeEntry
  | [] => []
  | node :: rest =>
    MastNodeEntry.new node (offset % 2 ^ 32) ::
      entriesFrom (offset + node.blockData.length) rest

def externalDigestsOf : List Word :=
  (nodes.filter MastNode.isExternal).map MastNode.digest

def nodeHashesOf : List Word :=
  (nodes.filter (fun node => !node.isExternal)).map MastNode.digest

/-- Every block of the forest holds canonical batches. -/
def CanonicalBlocks : Prop :=
  forall opBatches digest, MastNode.block opBatches digest ∈ nodes ->
    opBatches ≠ [] ∧ forall batch, batch ∈ opBatches -> CanonicalBatch batch

/-! ## Node entries -/

namespace MastNodeEntry

/-- The fields fit into their bits. -/
def Encodable : MastNodeEntry -> Prop
  | join left right => left < 2 ^ 30 ∧ right < 2 ^ 30
  | split ifBranch elseBranch => ifBranch < 2 ^ 30 ∧ elseBranch < 2 ^ 30
  | loop body => body < 2 ^ 32
  | block opsOffset => opsOffset < 2 ^ 32
  | call callee => callee < 2 ^ 32
  | sysCall callee => callee < 2 ^ 32
  | dyn | dyncall | external => True

def payload : MastNodeEntry -> Nat
  | join left right => left <<< 30 ||| right
  | split ifBranch elseBranch => ifBranch <<< 30 ||| elseBranch
  | loop body => body
  | block opsOffset => opsOffset
  | call callee => callee
  | sysCall callee => callee
  | dyn | dyncall | external => 0

/-- The bytes of an entry. -/
def bytes (entry : MastNodeEntry) : List UInt8 :=
  writeU64 (entry.discriminant <<< 60 ||| entry.payload)

variable {entry : MastNodeEntry}

section Encodable

variable (encodable : entry.Encodable)
include encodable

theorem payload_lt : entry.payload < 2 ^ 60 := by
  have single : forall {value : Nat}, value < 2 ^ 32 -> value < 2 ^ 60 :=
    fun small => lt_trans small (by decide)
  cases entry with
  | join left right | split ifBranch elseBranch => exact pack_lt encodable.1 encodable.2
  | loop body | block opsOffset | call callee | sysCall callee => exact single encodable
  | _ => decide

theorem writeInto_eq {ε : Type} : (entry.writeInto : Outcome ε _) = ok entry.bytes := by
  have pair : forall {left right : Nat}, left < 2 ^ 30 ∧ right < 2 ^ 30 ->
      (encodeU32Pair left right : Outcome ε Nat) = ok (left <<< 30 ||| right) := by
    intro left right small
    rw [encodeU32Pair, require_of small.1, ok_bind, require_of small.2, ok_bind]
  have encoded : (entry.encodePayload : Outcome ε Nat) = ok entry.payload := by
    cases entry with
    | join left right | split ifBranch elseBranch => exact pair encodable
    | _ => rfl
  rw [writeInto, encoded, ok_bind, bytes]

theorem ofValue_eq : ofValue (entry.discriminant <<< 60 ||| entry.payload) = ok entry := by
  have small := payload_lt encodable
  have single : forall {value : Nat}, value < 2 ^ 32 -> decodeU32Payload value = ok value := by
    intro value fits
    rw [decodeU32Payload, ensure_of fits, ok_bind]
  unfold ofValue
  dsimp only
  rw [pack_high small, pack_low small]
  cases entry with
  | join left right | split ifBranch elseBranch =>
    dsimp only [discriminant, payload]
    rw [pack_high encodable.2, pack_low encodable.2]
    rfl
  | loop body | block opsOffset | call callee | sysCall callee =>
    dsimp only [discriminant, payload]
    rw [single encodable]
    rfl
  | _ => rfl

omit encodable in
@[simp] theorem length_bytes (entry : MastNodeEntry) : entry.bytes.length = 8 := length_toLe 8 _

theorem fromLe_bytes : fromLe entry.bytes = entry.discriminant <<< 60 ||| entry.payload := by
  have tag : entry.discriminant < 2 ^ 4 := by cases entry <;> simp [discriminant]
  have small : entry.discriminant <<< 60 ||| entry.payload < 256 ^ 8 :=
    lt_of_lt_of_le (pack_lt tag (payload_lt encodable)) (by decide)
  exact fromLe_toLe_of_lt small

theorem readFrom_reads {start reserve : Nat} : Reads readFrom start reserve entry.bytes entry := by
  rw [readFrom_eq_fixed]
  apply (take _ _ (length_bytes entry)).bind_lift
  rw [fromLe_bytes encodable, ofValue_eq encodable]

end Encodable

end MastNodeEntry

/-! ## The loop over the nodes -/

theorem writeNode_eq {ε : Type} {node : MastNode} (hashless : Bool) (state : WriterState)
    (canonical : forall opBatches digest, node = .block opBatches digest ->
      forall batch, batch ∈ opBatches -> CanonicalBatch batch) :
    (writeNode hashless state node : Outcome ε _) = ok {
      basicBlockData := state.basicBlockData ++ node.blockData
      nodeEntries := state.nodeEntries ++ [new node (state.basicBlockData.length % 2 ^ 32)]
      externalDigests :=
        if node.isExternal then state.externalDigests ++ [node.digest] else state.externalDigests
      nodeHashes :=
        if node.isExternal || hashless then state.nodeHashes
        else state.nodeHashes ++ [node.digest] } := by
  unfold writeNode encodeNodeData
  cases node with
  | block opBatches digest =>
    dsimp only
    rw [encodeBasicBlock, basicBlockBytes_eq (canonical opBatches digest rfl), ok_bind, ok_bind]
    rfl
  | _ => simp only [ok_bind, MastNode.blockData, append_nil]; rfl

theorem foldlM_writeNode {ε : Type} (hashless : Bool) (nodes : List MastNode)
    (canonical : CanonicalBlocks nodes) (state : WriterState) :
    (nodes.foldlM (writeNode hashless) state : Outcome ε _) = ok {
      basicBlockData := state.basicBlockData ++ blockSection nodes
      nodeEntries := state.nodeEntries ++ entriesFrom state.basicBlockData.length nodes
      externalDigests := state.externalDigests ++ externalDigestsOf nodes
      nodeHashes := state.nodeHashes ++ (if hashless then [] else nodeHashesOf nodes) } := by
  induction nodes generalizing state with
  | nil =>
    cases hashless <;>
      simp [blockSection, entriesFrom, externalDigestsOf, nodeHashesOf]
  | cons node rest ih =>
    have head := @writeNode_eq ε node hashless state (fun opBatches digest same =>
      (canonical opBatches digest (by rw [← same]; exact mem_cons_self)).2)
    have others := ih (fun opBatches digest member =>
      canonical opBatches digest (mem_cons_of_mem node member))
    rw [foldlM_cons, head, ok_bind, others]
    dsimp only
    congr 2
    · simp [blockSection]
    · rw [entriesFrom, append_assoc, length_append]
      rfl
    · cases external : node.isExternal <;> simp [externalDigestsOf, external]
    · cases external : node.isExternal <;> cases hashless <;> simp [nodeHashesOf, external]

/-! ## Reading the structure back -/

section Structure

variable {start reserve : Nat} {isHashless : Bool}

/-- The bytes of the node hashes, if there are any. -/
def hashLength (isHashless : Bool) (internalNodeCount : Nat) : Nat :=
  if isHashless then 0 else internalNodeCount * 32

theorem validateInternalCount_reads
    (affordable : hashLength isHashless internalNodeCount ≤ reserve) :
    Reads (validateInternalCount isHashless internalNodeCount) start reserve [] () := by
  cases isHashless with
  | true => exact pure ()
  | false =>
    exact (checkAlloc _ (by decide) affordable :
      Reads (validateBudgetedCount _ Word.serializedSize _) start reserve [] ())

theorem nodeHashLength_eq (small : internalNodeCount * 32 < usizeLimit) :
    nodeHashLength isHashless internalNodeCount = ok (hashLength isHashless internalNodeCount) := by
  cases isHashless with
  | true => rfl
  | false => exact mulOrInvalid_of_lt _ small

/-- Counts, roots and the length of the block data. -/
theorem MastForestHeader.readFrom_reads {internalNodeCount externalNodeCount rootsCount
    basicBlockLen : Nat} {roots : List UInt8} (rootsLen : roots.length = rootsCount * 4)
    (bounded : internalNodeCount + externalNodeCount ≤ maxNodes)
    (fewRoots : rootsCount * 4 < usizeLimit)
    (fits : basicBlockLen + (externalNodeCount * 32 + hashLength isHashless internalNodeCount) +
      (internalNodeCount + externalNodeCount) * 8 < usizeLimit)
    (affordable : basicBlockLen + (externalNodeCount * 32 +
      hashLength isHashless internalNodeCount) +
      (internalNodeCount + externalNodeCount) * 8 ≤ reserve) :
    Reads (MastForestHeader.readFrom isHashless) start reserve
      (writeUsize internalNodeCount ++ (writeUsize externalNodeCount ++ (writeUsize rootsCount ++
        (roots ++ writeUsize basicBlockLen))))
      {
        isHashless
        nodeCount := internalNodeCount + externalNodeCount
        internalNodeCount
        externalNodeCount
        rootsCount
        rootsOffset := start + (writeUsize internalNodeCount).length +
          (writeUsize externalNodeCount).length + (writeUsize rootsCount).length
        basicBlockLen
        externalDigestsLen := externalNodeCount * 32
        nodeEntriesLen := (internalNodeCount + externalNodeCount) * 8
        coreTailLen := basicBlockLen +
          (externalNodeCount * 32 + hashLength isHashless internalNodeCount) +
          (internalNodeCount + externalNodeCount) * 8 } := by
  have few : internalNodeCount + externalNodeCount < 2 ^ 30 := lt_of_le_of_lt bounded (by decide)
  have limit : usizeLimit = 2 ^ 64 := rfl
  apply bind (readUsize_reads (by omega))
  apply bind (readUsize_reads (by omega))
  apply bind_nil (lift (addOrInvalid_of_lt _ (by omega)))
  apply bind_nil (ensure bounded _)
  apply bind_nil (checkAlloc _ (by decide)
    (by dsimp only [serializedSize]; omega))
  apply bind_nil (checkAlloc _ (by decide)
    (by dsimp only [Word.serializedSize]; omega))
  apply bind_nil (validateInternalCount_reads (by omega))
  apply bind (readUsize_reads (by omega))
  apply bind_nil (checkAlloc _ (by decide)
    (by rw [length_append]; omega))
  apply bind_nil (lift (mulOrInvalid_of_lt _ fewRoots))
  apply bind_nil (lift (mulOrInvalid_of_lt _
    (by dsimp only [Word.serializedSize]; omega)))
  apply bind_nil (lift (mulOrInvalid_of_lt _
    (by dsimp only [serializedSize]; omega)))
  apply bind_nil (lift (nodeHashLength_eq (by omega)))
  apply bind_nil (lift (addOrInvalid_of_lt _
    (by dsimp only [Word.serializedSize]; omega)))
  apply bind_nil position
  apply bind (readSlice_reads rootsLen)
  apply bind_last (readUsize_reads (by omega))
  apply bind_nil (lift (addOrInvalid_of_lt _
    (by dsimp only [Word.serializedSize]; omega)))
  apply bind_nil (lift (addOrInvalid_of_lt _
    (by dsimp only [Word.serializedSize, serializedSize]; omega)))
  apply bind_nil (checkAlloc _ (by decide) (by
    dsimp only [Word.serializedSize, serializedSize]
    rw [length_nil]
    omega))
  exact pure _

theorem validateNodeEntries_eq {entries : List MastNodeEntry}
    (encodable : forall entry, entry ∈ entries -> entry.Encodable) :
    validateNodeEntries (entries.flatMap bytes) entries.length
      (entries.countP isExternal) = ok () := by
  have read : decodeSlice (readFrom.many entries.length)
      (entries.flatMap bytes) = ok entries :=
    decodeSlice_eq_ok.mpr ⟨_, @many _ _ _ _ 0 0 bytes entries
      (fun entry member _ _ => readFrom_reads (encodable entry member))
      (Source.new _ none) [] rfl (append_nil _).symm
      (fun _ absent => absurd absent (by simp [Source.new]))⟩
  rw [validateNodeEntries, read, ok_bind, ensure_of rfl]

theorem nodeHashSection_eq {offset len : Nat} (small : offset + len < usizeLimit) :
    nodeHashSection isHashless offset len = ok (if isHashless then none else some (offset + len)) := by
  cases isHashless with
  | true => rfl
  | false =>
    rw [nodeHashSection, if_neg Bool.false_ne_true, addOrInvalid_of_lt _ small]
    rfl

/-- The block data, the entries and the digests. -/
theorem scanLayoutSections_reads {header : MastForestHeader} {blocks digests : List UInt8}
    {entries : List MastNodeEntry}
    (encodable : forall entry, entry ∈ entries -> entry.Encodable)
    (count : header.nodeCount = entries.length)
    (externals : header.externalNodeCount = entries.countP isExternal)
    (blockLen : header.basicBlockLen = blocks.length)
    (entriesLen : header.nodeEntriesLen = (entries.flatMap bytes).length)
    (tailLen : header.coreTailLen = (blocks ++ (entries.flatMap bytes ++ digests)).length)
    (digestsLen : header.externalDigestsLen ≤ digests.length)
    (fits : start + header.coreTailLen < usizeLimit) :
    Reads (scanLayoutSections header) start reserve
      (blocks ++ (entries.flatMap bytes ++ digests))
      {
        nodeCount := header.nodeCount
        internalNodeCount := header.internalNodeCount
        externalNodeCount := header.externalNodeCount
        rootsCount := header.rootsCount
        rootsOffset := header.rootsOffset
        basicBlockOffset := start
        basicBlockLen := header.basicBlockLen
        nodeEntryOffset := start + header.basicBlockLen
        externalDigestOffset := start + header.basicBlockLen + header.nodeEntriesLen
        nodeHashOffset := if header.isHashless then none
          else some (start + header.basicBlockLen + header.nodeEntriesLen + header.externalDigestsLen)
        adviceMapOffset := start + header.coreTailLen } := by
  have total : header.coreTailLen = blocks.length + ((entries.flatMap bytes).length + digests.length) := by
    rw [tailLen, length_append, length_append]
  apply bind_nil position
  apply bind_last (readSlice_reads tailLen.symm)
  apply bind_nil (lift (addOrInvalid_of_lt _ (by omega)))
  apply bind_nil (lift (addOrInvalid_of_lt _ (by omega)))
  apply bind_nil (lift (nodeHashSection_eq (by omega)))
  apply bind_nil (lift (addOrInvalid_of_lt _ fits))
  apply bind_nil (lift (addOrInvalid_of_lt _ (by omega)))
  have cut : (slice (blocks ++ (entries.flatMap bytes ++ digests))
      header.basicBlockLen (header.basicBlockLen + header.nodeEntriesLen) :
        Outcome DeserializationError _) = ok (entries.flatMap bytes) := by
    rw [slice_of_le _ (Nat.le_add_right _ _) (by rw [← tailLen]; omega), drop_take,
      Nat.add_sub_cancel_left, blockLen, drop_left, entriesLen, take_left]
  apply bind_nil (lift cut)
  apply bind_nil (lift (by
    rw [count, externals]
    exact validateNodeEntries_eq encodable))
  exact pure _

theorem readAndValidateHeader_reads (hashless : Bool) :
    Reads readAndValidateHeader start reserve
      (magic ++ ([if hashless then flagHashless else 0] ++ version))
      (if hashless then flagHashless else 0) := by
  have four : magic.length = 4 := rfl
  have three : version.length = 3 := rfl
  have reserved : (if hashless then flagHashless else 0) &&& flagsReservedMask = 0 := by
    cases hashless <;> decide
  apply bind (readSlice_reads four)
  apply bind_nil (ensure rfl _)
  apply bind (readU8_reads _)
  apply bind_last (readSlice_reads three)
  apply bind_nil (ensure rfl _)
  apply bind_nil (ensure reserved _)
  exact pure _

end Structure

/-! ## The bytes of a forest -/

/-- What a forest satisfies when it is written. -/
structure WritableForest (forest : MastForest) : Prop where
  order : DenseOrder forest.nodes
  bounded : forest.nodes.length ≤ maxNodes
  roots : forall rootId, rootId ∈ forest.roots -> rootId < forest.nodes.length
  blocks : CanonicalBlocks forest.nodes

variable (offset : Nat) (nodes : List MastNode)

def externalCount : Nat := nodes.countP MastNode.isExternal

def internalCount : Nat := nodes.length - externalCount nodes

/-- The digests that are written. -/
def writtenHashes (hashless : Bool) : List Word :=
  if hashless then [] else nodeHashesOf nodes

/-- The counts and the roots, up to the block data. -/
def countBytes (forest : MastForest) : List UInt8 :=
  writeUsize (internalCount forest.nodes) ++ (writeUsize (externalCount forest.nodes) ++
    (writeUsize forest.roots.length ++ (forest.roots.flatMap writeU32 ++
      writeUsize (blockSection forest.nodes).length)))

/-- The sections from the block data up to the advice map. -/
def sectionBytes (forest : MastForest) (hashless : Bool) : List UInt8 :=
  blockSection forest.nodes ++ ((entriesFrom 0 forest.nodes).flatMap MastNodeEntry.bytes ++
    ((externalDigestsOf forest.nodes).flatMap Word.writeInto ++
      (writtenHashes forest.nodes hashless).flatMap Word.writeInto))

/-- Everything up to the advice map. -/
def structureBytes (forest : MastForest) (hashless : Bool) : List UInt8 :=
  (magic ++ ([if hashless then flagHashless else 0] ++ version)) ++
    (countBytes forest ++ sectionBytes forest hashless)

/-- In dense order the externals are the nodes in front. -/
theorem length_takeWhile_external {nodes : List MastNode}
    (classes : nodes.Pairwise (fun left right => left.orderClass.rank ≤ right.orderClass.rank)) :
    (nodes.takeWhile MastNode.isExternal).length = externalCount nodes := by
  induction nodes with
  | nil => rfl
  | cons node rest ih =>
    rcases pairwise_cons.mp classes with ⟨first, others⟩
    cases external : node.isExternal with
    | true =>
      rw [takeWhile_cons_of_pos external, length_cons, ih others, externalCount,
        externalCount, countP_cons_of_pos external]
    | false =>
      have none : externalCount (node :: rest) = 0 := by
        apply countP_eq_zero.mpr
        intro other member isExternal
        rcases mem_cons.mp member with rfl | later
        · rw [external] at isExternal
          cases isExternal
        · have ordered := first other later
          cases other with
          | external digest =>
            cases node with
            | external digest => cases external
            | _ => cases ordered
          | _ => cases isExternal
      rw [takeWhile_cons_of_neg (by rw [external]; exact Bool.false_ne_true), none, length_nil]

theorem length_entriesFrom :
    (entriesFrom offset nodes).length = nodes.length := by
  induction nodes generalizing offset with
  | nil => rfl
  | cons node rest ih => rw [entriesFrom, length_cons, length_cons, ih]

theorem getElem?_entriesFrom (index : Nat) :
    (entriesFrom offset nodes)[index]? = nodes[index]?.map (fun node =>
      new node ((offset + (blockSection (nodes.take index)).length) % 2 ^ 32)) := by
  induction nodes generalizing offset index with
  | nil => rfl
  | cons node rest ih =>
    cases index with
    | zero => simp [entriesFrom, blockSection]
    | succ index =>
      rw [entriesFrom, getElem?_cons_succ, ih, getElem?_cons_succ,
        take_succ_cons, blockSection, blockSection, flatMap_cons, length_append,
        add_assoc]

theorem MastNodeEntry.isExternal_new (node : MastNode) (offset : Nat) :
    (new node offset).isExternal = node.isExternal := by
  cases node with
  | call callee isSyscall digest => cases isSyscall <;> rfl
  | dyn isDyncall digest => cases isDyncall <;> rfl
  | _ => rfl

theorem map_isExternal_entriesFrom :
    (entriesFrom offset nodes).map isExternal = nodes.map MastNode.isExternal := by
  induction nodes generalizing offset with
  | nil => rfl
  | cons node rest ih =>
    rw [entriesFrom, map_cons, map_cons, ih, isExternal_new]

/-- The entries in front of an index have the externals of the nodes there. -/
theorem externalsBefore_entriesFrom (index : Nat) :
    externalsBefore (entriesFrom offset nodes) index = externalCount (nodes.take index) := by
  have byMap : forall {α : Type} (items : List α) (p : α -> Bool),
      items.countP p = (items.map p).countP id := by
    intro α items p
    rw [countP_map]
    rfl
  rw [externalsBefore, externalCount, byMap, byMap (nodes.take index), map_take,
    map_isExternal_entriesFrom, map_take]

theorem countP_entriesFrom :
    (entriesFrom offset nodes).countP MastNodeEntry.isExternal = externalCount nodes := by
  have all := externalsBefore_entriesFrom offset nodes nodes.length
  rwa [externalsBefore, take_length, ← length_entriesFrom offset nodes, take_length] at all

theorem MastNodeEntry.encodable_new {node : MastNode} {offset : Nat}
    (children : forall childId, childId ∈ node.children -> childId < 2 ^ 30)
    (small : offset < 2 ^ 32) : (new node offset).Encodable := by
  have wide : forall {id : Nat}, id < 2 ^ 30 -> id < 2 ^ 32 := fun fits => lt_trans fits (by decide)
  cases node with
  | block opBatches digest => exact small
  | join first second digest | split first second digest =>
    exact ⟨children first (by simp [MastNode.children]),
      children second (by simp [MastNode.children])⟩
  | loop body digest => exact wide (children body (by simp [MastNode.children]))
  | call callee isSyscall digest =>
    have fits := wide (children callee (by simp [MastNode.children]))
    cases isSyscall <;> exact fits
  | dyn isDyncall digest => cases isDyncall <;> trivial
  | external digest => trivial

namespace WritableForest

variable {forest : MastForest}

theorem length_lt (writable : WritableForest forest) : forest.nodes.length < 2 ^ 30 :=
  lt_of_le_of_lt writable.bounded (by decide)

theorem encodable (writable : WritableForest forest) :
    forall entry, entry ∈ entriesFrom 0 forest.nodes -> entry.Encodable := by
  intro entry member
  rcases mem_iff_getElem?.mp member with ⟨index, found⟩
  rw [getElem?_entriesFrom] at found
  rcases Option.map_eq_some_iff.mp found with ⟨node, atNode, rfl⟩
  apply encodable_new
  · intro childId child
    have before := writable.order.backward index node atNode childId child
    have inside := (List.getElem?_eq_some_iff.mp atNode).1
    have small := writable.length_lt
    omega
  · exact Nat.mod_lt _ (by decide)

theorem externalCount_le (nodes : List MastNode) : externalCount nodes ≤ nodes.length :=
  countP_le_length

/-- The writer does not abort, and these are the bytes. -/
theorem writeIntoWithOptions_eq {ε : Type} (writable : WritableForest forest) (hashless : Bool) :
    (forest.writeIntoWithOptions hashless : Outcome ε _) =
      ok (structureBytes forest hashless ++ forest.adviceMap.writeInto) := by
  have written := @foldlM_writeNode ε hashless forest.nodes writable.blocks ⟨[], [], [], []⟩
  have entries : (concatMap (entriesFrom 0 forest.nodes) writeInto : Outcome ε _) =
      ok ((entriesFrom 0 forest.nodes).flatMap bytes) :=
    concatMap_eq_ok_flatMap _ (fun entry member =>
      writeInto_eq (writable.encodable entry member))
  unfold MastForest.writeIntoWithOptions
  dsimp only
  rw [require_of (validateDenseNodeOrder_eq_ok.mpr writable.order), ok_bind,
    length_takeWhile_external writable.order.classes,
    checkedSub_of_le (externalCount_le forest.nodes), ok_bind, written, ok_bind]
  dsimp only
  rw [nil_append, nil_append, nil_append, nil_append, length_nil, entries, ok_bind]
  simp only [structureBytes, countBytes, sectionBytes, writeVec, writtenHashes, internalCount,
    append_assoc]

end WritableForest

/-! ## Where the sections start -/

section Offsets

variable (forest : MastForest)

def rootsStart : Nat :=
  8 + (writeUsize (internalCount forest.nodes)).length +
    (writeUsize (externalCount forest.nodes)).length + (writeUsize forest.roots.length).length

def blocksStart : Nat :=
  rootsStart forest + forest.roots.length * 4 + (writeUsize (blockSection forest.nodes).length).length

def entriesStart : Nat := blocksStart forest + (blockSection forest.nodes).length

def externalsStart : Nat := entriesStart forest + forest.nodes.length * 8

def hashesStart : Nat := externalsStart forest + externalCount forest.nodes * 32

def adviceStart (hashless : Bool) : Nat :=
  hashesStart forest + hashLength hashless (internalCount forest.nodes)

/-- The layout of the bytes of a forest. -/
def writtenLayout (hashless : Bool) : ForestLayout where
  nodeCount := forest.nodes.length
  internalNodeCount := internalCount forest.nodes
  externalNodeCount := externalCount forest.nodes
  rootsCount := forest.roots.length
  rootsOffset := rootsStart forest
  basicBlockOffset := blocksStart forest
  basicBlockLen := (blockSection forest.nodes).length
  nodeEntryOffset := entriesStart forest
  externalDigestOffset := externalsStart forest
  nodeHashOffset := if hashless then none else some (hashesStart forest)
  adviceMapOffset := adviceStart forest hashless

end Offsets

theorem length_roots (roots : List Nat) : (roots.flatMap writeU32).length = roots.length * 4 :=
  length_flatMap_of_sized _ _ (fun _ _ => length_toLe 4 _)

theorem length_words (words : List Word) : (words.flatMap Word.writeInto).length = words.length * 32 :=
  length_flatMap_of_sized _ _ (fun word _ => Word.length_writeInto word)

theorem length_entries (entries : List MastNodeEntry) : (entries.flatMap bytes).length = entries.length * 8 :=
  length_flatMap_of_sized _ _ (fun entry _ => length_bytes entry)

variable (nodes : List MastNode)

theorem length_externalDigestsOf :
    (externalDigestsOf nodes).length = externalCount nodes := by
  rw [externalDigestsOf, length_map, externalCount, countP_eq_length_filter]

theorem length_nodeHashesOf : (nodeHashesOf nodes).length = internalCount nodes := by
  have split := @length_eq_countP_add_countP _ MastNode.isExternal nodes
  rw [nodeHashesOf, length_map, internalCount, externalCount, ← countP_eq_length_filter]
  simp only [Bool.not_eq_true, Bool.decide_eq_false] at split
  omega

theorem length_writtenHashes (hashless : Bool) :
    (writtenHashes nodes hashless).length * 32 = hashLength hashless (internalCount nodes) := by
  cases hashless with
  | true => rfl
  | false => rw [writtenHashes, if_neg Bool.false_ne_true, length_nodeHashesOf]; rfl

theorem length_header (flags : UInt8) : (magic ++ ([flags] ++ version)).length = 8 := rfl

theorem length_countBytes (forest : MastForest) :
    8 + (countBytes forest).length = blocksStart forest := by
  simp only [countBytes, length_append, length_roots, blocksStart, rootsStart]
  omega

theorem length_sectionBytes (forest : MastForest) (hashless : Bool) :
    blocksStart forest + (sectionBytes forest hashless).length = adviceStart forest hashless := by
  simp only [sectionBytes, length_append, length_words, length_entries, length_entriesFrom,
    length_externalDigestsOf, length_writtenHashes, adviceStart, hashesStart, externalsStart,
    entriesStart]
  omega

theorem length_structureBytes (forest : MastForest) (hashless : Bool) :
    (structureBytes forest hashless).length = adviceStart forest hashless := by
  rw [structureBytes, length_append, length_header, length_append, ← add_assoc,
    length_countBytes, length_sectionBytes]

namespace WritableForest

variable {forest : MastForest}

theorem counts (nodes : List MastNode) : internalCount nodes + externalCount nodes =
    nodes.length := by
  have bound := externalCount_le nodes
  unfold internalCount
  omega

/-- The scan finds the layout. -/
theorem readHeaderAndScanLayout_reads (writable : WritableForest forest) {hashless : Bool}
    {allowHashless : Bool} (allowed : hashless = true -> allowHashless = true)
    (fits : adviceStart forest hashless < usizeLimit) {reserve : Nat} :
    Reads (readHeaderAndScanLayout allowHashless) 0 reserve (structureBytes forest hashless)
      (writtenLayout forest hashless) := by
  have nodes := counts forest.nodes
  have flag : isHashlessFlag (if hashless then flagHashless else 0) = hashless := by
    cases hashless <;> decide
  set body := (blockSection forest.nodes).length + (externalCount forest.nodes * 32 +
    hashLength hashless (internalCount forest.nodes)) with bodyEq
  have sections := length_sectionBytes forest hashless
  simp only [adviceStart, hashesStart, externalsStart, entriesStart] at fits sections
  have tailSize : (sectionBytes forest hashless).length =
      body + (internalCount forest.nodes + externalCount forest.nodes) * 8 := by
    omega
  simp only [blocksStart] at fits
  apply bind (readAndValidateHeader_reads hashless)
  apply bind_nil (ensure _ _)
  · rw [flag]
    apply Reads.bind (MastForestHeader.readFrom_reads (length_roots forest.roots)
      (by rw [nodes]; exact writable.bounded) (by omega) (by omega)
      (by rw [tailSize]; exact Nat.le_add_right _ _))
    rw [zero_add, length_header]
    change Reads _ (8 + (countBytes forest).length) _ _ _
    rw [length_countBytes]
    have scan := @scanLayoutSections_reads (blocksStart forest) reserve
      {
        isHashless := hashless
        nodeCount := internalCount forest.nodes + externalCount forest.nodes
        internalNodeCount := internalCount forest.nodes
        externalNodeCount := externalCount forest.nodes
        rootsCount := forest.roots.length
        rootsOffset := rootsStart forest
        basicBlockLen := (blockSection forest.nodes).length
        externalDigestsLen := externalCount forest.nodes * 32
        nodeEntriesLen := (internalCount forest.nodes + externalCount forest.nodes) * 8
        coreTailLen := body + (internalCount forest.nodes + externalCount forest.nodes) * 8 }
      (blockSection forest.nodes)
      ((externalDigestsOf forest.nodes).flatMap Word.writeInto ++
        (writtenHashes forest.nodes hashless).flatMap Word.writeInto)
      (entriesFrom 0 forest.nodes) writable.encodable
      (by rw [length_entriesFrom]; exact nodes)
      (countP_entriesFrom 0 forest.nodes).symm
      rfl
      (by rw [length_entries, length_entriesFrom, nodes])
      tailSize.symm
      (by rw [length_append, length_words, length_externalDigestsOf]; exact Nat.le_add_right _ _)
      (by dsimp only [blocksStart]; omega)
    dsimp only at scan
    rw [nodes] at scan
    rw [nodes]
    have same : adviceStart forest hashless =
        blocksStart forest + (body + forest.nodes.length * 8) := by
      simp only [adviceStart, hashesStart, externalsStart, entriesStart]
      omega
    rw [writtenLayout, same]
    exact scan
  · rintro ⟨set, refused⟩
    rw [flag] at set
    rw [allowed set] at refused
    cases refused

end WritableForest

end MidenVm.Mast
