import MidenVm.Mast.Serialization.UntrustedSpec
import MidenVm.Mast.Serialization.WriterSpec

namespace MidenVm.Mast

open Foundation Outcome Parser Serde List MastNodeEntry ForestDigests MastNode Option

/-!
# Writing a forest and reading it back

The scan of a written forest returns its layout, and every entry, digest and
root is found where it was written.  What remains is whether each block is
decoded from the offset its entry stores.  The writer keeps 32 bits of that
offset, so a forest is read back exactly when every block is found at its
truncated offset; offsets below `2^32` are enough.
-/

/-! ## Sections inside the bytes -/

variable {offset index : Nat} {entry : MastNodeEntry} {node : MastNode} {blockData : List UInt8}
  {hasher : Hasher} {digests : ForestDigests}

theorem readFixedSectionEntry_section {α : Type} {encode : α -> List UInt8} {width : Nat}
    {items : List α}
    (sized : forall item, item ∈ items -> (encode item).length = width)
    {bytes front back : List UInt8}
    (shape : bytes = front ++ (items.flatMap encode ++ back)) (small : bytes.length < usizeLimit)
    (start : front.length = offset) {item : α} (found : items[index]? = some item)
    (sectionName : String) :
    readFixedSectionEntry bytes offset width index sectionName = ok (encode item) := by
  have inItems := (List.getElem?_eq_some_iff.mp found).1
  have size := length_flatMap_of_sized encode items sized
  have room : index * width + width ≤ items.length * width := by
    rw [← Nat.succ_mul]
    exact Nat.mul_le_mul_right width inItems
  have total : bytes.length = front.length + (items.length * width + back.length) := by
    rw [shape, length_append, length_append, size]
  refine readFixedSectionEntry_eq_ok.mpr ⟨by omega, by omega, ?_⟩
  rw [shape, ← start, ← drop_drop, drop_left]
  exact (record_flatMap sized found back).symm

/-- An element that a filter keeps stands behind as many kept elements as
before. -/
theorem getElem?_filter_countP {α : Type} {p : α -> Bool} {items : List α} {item : α}
    (found : items[index]? = some item) (kept : p item = true) :
    (items.filter p)[(items.take index).countP p]? = some item := by
  induction items generalizing index with
  | nil => cases found
  | cons head tail ih =>
    cases index with
    | zero =>
      cases found
      simp [kept]
    | succ index =>
      have inner := ih found
      cases keeps : p head with
      | true | false => simpa [keeps] using inner

section Written

variable {forest : MastForest} {hashless : Bool}

/-- The whole payload. -/
def forestBytes (forest : MastForest) (hashless : Bool) : List UInt8 :=
  structureBytes forest hashless ++ forest.adviceMap.writeInto

/-- Everything in front of the block data. -/
def frontBytes (forest : MastForest) (hashless : Bool) : List UInt8 :=
  (magic ++ ([if hashless then flagHashless else 0] ++ version)) ++ countBytes forest

theorem length_frontBytes : (frontBytes forest hashless).length = blocksStart forest := by
  rw [frontBytes, length_append, length_header, length_countBytes]

/-- The sections from the block data on. -/
theorem forestBytes_eq : forestBytes forest hashless = frontBytes forest hashless ++
    (blockSection forest.nodes ++ ((entriesFrom 0 forest.nodes).flatMap bytes ++
      ((externalDigestsOf forest.nodes).flatMap Word.writeInto ++
        ((writtenHashes forest.nodes hashless).flatMap Word.writeInto ++ forest.adviceMap.writeInto)))) := by
  simp only [forestBytes, structureBytes, frontBytes, sectionBytes, append_assoc]

theorem length_forestBytes : (forestBytes forest hashless).length =
    adviceStart forest hashless + forest.adviceMap.writeInto.length := by
  rw [forestBytes, length_append, length_structureBytes]

theorem exists_roots_split : ∃ front back, front.length = rootsStart forest ∧
    forestBytes forest hashless = front ++ (forest.roots.flatMap writeU32 ++ back) := by
  have front : frontBytes forest hashless =
      ((magic ++ ([if hashless then flagHashless else 0] ++ version)) ++
        (writeUsize (internalCount forest.nodes) ++ (writeUsize (externalCount forest.nodes) ++
          writeUsize forest.roots.length))) ++
        (forest.roots.flatMap writeU32 ++ writeUsize (blockSection forest.nodes).length) := by
    simp only [frontBytes, countBytes, append_assoc]
  have shape := @forestBytes_eq forest hashless
  rw [front, append_assoc, append_assoc (forest.roots.flatMap writeU32)] at shape
  refine ⟨_, _, ?_, shape⟩
  rw [length_append, length_header]
  simp only [length_append, rootsStart]
  omega

theorem exists_entries_split : ∃ front back, front.length = entriesStart forest ∧
    forestBytes forest hashless = front ++ ((entriesFrom 0 forest.nodes).flatMap bytes ++ back) := by
  have shape := @forestBytes_eq forest hashless
  rw [← append_assoc] at shape
  refine ⟨_, _, ?_, shape⟩
  rw [length_append, length_frontBytes, entriesStart]

theorem exists_externals_split : ∃ front back, front.length = externalsStart forest ∧
    forestBytes forest hashless =
      front ++ ((externalDigestsOf forest.nodes).flatMap Word.writeInto ++ back) := by
  have shape := @forestBytes_eq forest hashless
  rw [← append_assoc, ← append_assoc] at shape
  refine ⟨_, _, ?_, shape⟩
  rw [length_append, length_append, length_frontBytes, length_entries,
    length_entriesFrom, externalsStart, entriesStart]

theorem exists_hashes_split : ∃ front back, front.length = hashesStart forest ∧
    forestBytes forest hashless =
      front ++ ((writtenHashes forest.nodes hashless).flatMap Word.writeInto ++ back) := by
  have shape := @forestBytes_eq forest hashless
  rw [← append_assoc, ← append_assoc, ← append_assoc] at shape
  refine ⟨_, _, ?_, shape⟩
  rw [length_append, length_append, length_append, length_frontBytes,
    length_entries, length_entriesFrom, length_words, length_externalDigestsOf, hashesStart,
    externalsStart, entriesStart]

theorem readDigestEntry_section {words : List Word} {bytes front back : List UInt8}
    (shape : bytes = front ++ (words.flatMap Word.writeInto ++ back))
    (small : bytes.length < usizeLimit)
    (start : front.length = offset) {word : Word} (found : words[index]? = some word) :
    readDigestEntry bytes offset index = ok word := by
  have raw := readFixedSectionEntry_section (fun word _ => Word.length_writeInto word) shape small
    start found "digest"
  have decoded : decodeSlice Word.readFrom word.writeInto = ok word :=
    decodeSlice_eq_ok.mpr ⟨_, @Word.readFrom_reads 0 0 word (Source.new _ none) [] rfl
      (append_nil _).symm (fun _ absent => absurd absent (by simp [Source.new]))⟩
  unfold readDigestEntry Word.serializedSize
  rw [raw, ok_bind, decoded]

/-- What reading the payload leaves for materialization. -/
def writtenUntrusted (forest : MastForest) (hashless : Bool) (allocation : Option Nat) :
    UntrustedMastForest where
  bytes := forestBytes forest hashless
  layout := writtenLayout forest hashless
  adviceMap := forest.adviceMap
  remainingAllocationBudget := allocation

/-- Nothing is left behind the payload. -/
theorem hasMoreBytes_written (budget : Nat) :
    hasMoreBytes ((Source.new (forestBytes forest hashless) (some budget)).advance
      (forestBytes forest hashless).length) = false := by
  have empty : ((Source.new (forestBytes forest hashless) (some budget)).advance
      (forestBytes forest hashless).length).rest = [] := by
    rw [Source.rest_advance]
    exact drop_length
  rw [hasMoreBytes, empty]
  exact Bool.and_false _

theorem reserveNodeCapacity_of_le {elementSize nodeCount budget : Nat} (label : String)
    (covered : nodeCount * elementSize ≤ budget) (fits : nodeCount * elementSize < usizeLimit) :
    reserveNodeCapacity elementSize nodeCount label (some budget) =
      ok (some (budget - nodeCount * elementSize)) := by
  have reserved : reserveAllocation elementSize budget nodeCount label =
      ok (budget - nodeCount * elementSize) := by
    rw [reserveAllocation, mulOrInvalid_of_lt _ fits, ok_bind, ensure_of covered, ok_bind]
  rw [reserveNodeCapacity, reserved]
  rfl

/-- A node is rebuilt from its entry, its digest, and its operations if it is
a block. -/
theorem builds_new {nodeCount : Nat}
    (inside : forall childId, childId ∈ node.children -> childId < nodeCount)
    (nonempty : forall opBatches digest, node = .block opBatches digest -> opBatches ≠ [])
    (decoded : forall opBatches digest, node = .block opBatches digest ->
        decodeOperations blockData offset = ok opBatches) :
    (new node offset).Builds nodeCount blockData node.digest node := by
  cases node with
  | block opBatches digest => exact .block (decoded _ _ rfl) (nonempty _ _ rfl)
  | join first second digest =>
    exact .join (inside first mem_cons_self) (inside second (by simp [MastNode.children]))
  | split onTrue onFalse digest =>
    exact .split (inside onTrue mem_cons_self) (inside onFalse (by simp [MastNode.children]))
  | loop body digest => exact .loop (inside body mem_cons_self)
  | call callee isSyscall digest =>
    cases isSyscall with
    | false => exact .call (inside callee mem_cons_self)
    | true => exact .sysCall (inside callee mem_cons_self)
  | dyn isDyncall digest =>
    cases isDyncall with
    | false => exact .dyn
    | true => exact .dyncall
  | external digest => exact .external

/-- Only the operations that are found at its offset make a block out of its
entry. -/
theorem decoded_of_builds {opBatches : List OpBatch} {digest found : Word} {nodeCount : Nat}
    (builds : (new (.block opBatches digest) offset).Builds nodeCount blockData found (.block
        opBatches digest)) :
    decodeOperations blockData offset = ok opBatches := by
  cases builds with
  | block decoded nonempty => exact decoded

/-- Every block is decoded from the 32 bits its entry has for its offset. -/
def RecoverableBlocks (nodes : List MastNode) : Prop :=
  forall (index : Nat) opBatches digest, nodes[index]? = some (MastNode.block opBatches digest) ->
    decodeOperations (blockSection nodes) ((blockSection (nodes.take index)).length % 2 ^ 32) = ok opBatches

/-- A forest that was materialized from its own payload has its blocks at the
offsets of their entries. -/
theorem Materializes.recoverable {resolved : ResolvedSerializedForest}
    (materializes : Materializes resolved (entriesFrom 0 forest.nodes) (blockSection forest.nodes)
      forest) : RecoverableBlocks forest.nodes := by
  intro index opBatches digest atNode
  have atEntry := getElem?_entriesFrom 0 forest.nodes index
  rw [atNode, map_some, zero_add] at atEntry
  rcases materializes.nodeAt index _ _ atEntry atNode with ⟨found, _, builds⟩
  exact decoded_of_builds builds

variable (small : (forestBytes forest hashless).length < usizeLimit)

include small

theorem basicBlockData_written :
    basicBlockData (forestBytes forest hashless) (blocksStart forest)
      (blockSection forest.nodes).length = ok (blockSection forest.nodes) := by
  have total := congrArg List.length (@forestBytes_eq forest hashless)
  rw [length_append, length_append, length_frontBytes] at total
  unfold basicBlockData
  rw [addOrInvalid_of_lt _ (by omega), ok_bind, ensure_of (by omega), ok_bind,
    slice_of_le _ (Nat.le_add_right _ _) (by omega), drop_take, Nat.add_sub_cancel_left,
    forestBytes_eq, ← length_frontBytes, drop_left, take_left]

/-- The digest of an external node is in its section. -/
theorem externalDigest_written (found : forest.nodes[index]? = some node)
    (external : node.isExternal = true) :
    readDigestEntry (forestBytes forest hashless) (externalsStart forest)
      (externalsBefore (entriesFrom 0 forest.nodes) index) = ok node.digest := by
  rcases @exists_externals_split forest hashless with ⟨front, back, start, shape⟩
  apply readDigestEntry_section shape small start
  rw [externalsBefore_entriesFrom, externalDigestsOf, getElem?_map, externalCount,
    getElem?_filter_countP found external, map_some]

/-- The digest of any other node is in the node-hash section. -/
theorem nodeHash_written (hashed : hashless = false) (found : forest.nodes[index]? = some node)
    (internal : node.isExternal = false) :
    readDigestEntry (forestBytes forest hashless) (hashesStart forest)
      (index - externalsBefore (entriesFrom 0 forest.nodes) index) = ok node.digest := by
  rcases @exists_hashes_split forest hashless with ⟨front, back, start, shape⟩
  apply readDigestEntry_section shape small start
  have inside := (List.getElem?_eq_some_iff.mp found).1
  have split := @length_eq_countP_add_countP _ MastNode.isExternal (forest.nodes.take index)
  rw [length_take, Nat.min_eq_left (le_of_lt inside)] at split
  simp only [Bool.not_eq_true, Bool.decide_eq_false] at split
  have slot : index - externalCount (forest.nodes.take index) =
      (forest.nodes.take index).countP (fun node => !node.isExternal) := by
    unfold externalCount
    omega
  rw [externalsBefore_entriesFrom, slot, writtenHashes, hashed, if_neg Bool.false_ne_true,
    nodeHashesOf, getElem?_map, getElem?_filter_countP found (by rw [internal]; rfl),
    map_some]

section Writable

variable (writable : WritableForest forest)
include writable

theorem readNodeEntryAt_written (found : (entriesFrom 0 forest.nodes)[index]? = some entry) :
    (writtenLayout forest hashless).readNodeEntryAt (forestBytes forest hashless) index =
      ok entry := by
  have inside : index < (writtenLayout forest hashless).nodeCount := by
    have inEntries := (List.getElem?_eq_some_iff.mp found).1
    rwa [length_entriesFrom] at inEntries
  have encodable := writable.encodable entry (mem_of_getElem? found)
  rcases @exists_entries_split forest hashless with ⟨front, back, start, shape⟩
  have raw : readFixedSectionEntry (forestBytes forest hashless)
      (writtenLayout forest hashless).nodeEntryOffset serializedSize index
        "node entry" = ok entry.bytes :=
    readFixedSectionEntry_section (fun entry _ => length_bytes entry) shape small start
      found "node entry"
  unfold ForestLayout.readNodeEntryAt
  rw [ensure_of inside, ok_bind, raw, ok_bind, decodeSlice_entry (length_bytes entry),
    fromLe_bytes encodable, ofValue_eq encodable]

theorem scannedLayout_written :
    ScannedLayout (forestBytes forest hashless) (writtenLayout forest hashless)
      (entriesFrom 0 forest.nodes) where
  length_entries := length_entriesFrom 0 forest.nodes
  entryAt := fun _ _ found => readNodeEntryAt_written small writable found
  externals := countP_entriesFrom 0 forest.nodes
  counts := WritableForest.counts forest.nodes
  bounded := writable.bounded

theorem readProcedureRootAt_written {rootId : Nat} (found : forest.roots[index]? = some rootId) :
    (writtenLayout forest hashless).readProcedureRootAt (forestBytes forest hashless) index =
      ok rootId := by
  have inside : index < (writtenLayout forest hashless).rootsCount :=
    (List.getElem?_eq_some_iff.mp found).1
  have root := writable.roots rootId (mem_of_getElem? found)
  have nodes := writable.length_lt
  have value : fromLe (writeU32 rootId) = rootId :=
    fromLe_toLe_of_lt (lt_of_lt_of_le (lt_trans root nodes) (by decide))
  rcases @exists_roots_split forest hashless with ⟨front, back, start, shape⟩
  have raw : readFixedSectionEntry (forestBytes forest hashless)
      (writtenLayout forest hashless).rootsOffset 4 index "root" = ok (writeU32 rootId) :=
    readFixedSectionEntry_section (fun root _ => length_toLe 4 root) shape small start found "root"
  unfold ForestLayout.readProcedureRootAt
  rw [ensure_of inside, ok_bind, raw, ok_bind, value]
  exact nodeIdWithNodeCount_eq_ok.mpr ⟨root, rfl⟩

/-! ## Reading the payload -/

/-- With a budget for all of it, the payload is read to its end. -/
theorem decode_written {allowHashless : Bool} (allowed : hashless = true -> allowHashless = true)
    (allocation : Option Nat) {budget : Nat}
    (covered : (forestBytes forest hashless).length ≤ budget) :
    decodeFromReaderInner allowHashless allocation
        (Source.new (forestBytes forest hashless) (some budget)) =
      ok (writtenUntrusted forest hashless allocation,
        (Source.new (forestBytes forest hashless) (some budget)).advance
          (forestBytes forest hashless).length) := by
  have size := @length_forestBytes forest hashless
  have front := length_structureBytes forest hashless
  have advice := AdviceMap.lengths_lt (show forest.adviceMap.writeInto.length < usizeLimit by omega)
  set source := Source.new (forestBytes forest hashless) (some budget)
  have covers : source.Covers ((structureBytes forest hashless).length + forest.adviceMap.writeInto.length) := by
    intro limit present
    cases present
    omega
  have scanned := writable.readHeaderAndScanLayout_reads allowed (by omega) source
    forest.adviceMap.writeInto rfl rfl covers
  have read := @AdviceMap.readFrom_reads _ 0 forest.adviceMap advice.1 advice.2
    (source.advance (structureBytes forest hashless).length) [] rfl
    (by rw [Source.rest_advance, append_nil]; exact drop_left) covers.advance
  rw [Source.advance_advance, front, ← size] at read
  have kept : (source.advance (forestBytes forest hashless).length).consumed =
      forestBytes forest hashless := take_length
  refine tracked_eq_ok.mpr ⟨source.advance (forestBytes forest hashless).length, ?_, rfl⟩
  rw [decodeTracked_eq]
  refine (bind_of_ok scanned).trans ?_
  rw [front]
  refine (bind_of_ok read).trans ?_
  refine (bind_of_ok (show recorded _ = ok (_, _) from rfl)).trans ?_
  rw [kept]
  rfl

/-! ## Materializing the nodes -/

omit small in
theorem builds_written (recoverable : RecoverableBlocks forest.nodes)
    (atNode : forest.nodes[index]? = some node) :
    (new node ((blockSection (forest.nodes.take index)).length % 2 ^ 32)).Builds
      forest.nodes.length (blockSection forest.nodes) node.digest node := by
  apply builds_new
  · intro childId child
    exact lt_trans (writable.order.backward index node atNode childId child)
      (List.getElem?_eq_some_iff.mp atNode).1
  · rintro opBatches digest rfl
    exact (writable.blocks opBatches digest (mem_of_getElem? atNode)).1
  · rintro opBatches digest rfl
    exact recoverable index opBatches digest atNode

section Resolved

variable (resolved : ResolvedDigests hasher (forestBytes forest hashless) (writtenLayout forest hashless) (entriesFrom 0 forest.nodes) digests)
include resolved

omit writable in
/-- The digests of a resolved payload are those of the nodes. -/
theorem nodeDigestForEntry_written
    (rebuilt : hashless = true -> digests.hashTable = some (forest.nodes.map digest))
    (atEntry : (entriesFrom 0 forest.nodes)[index]? = some entry)
    (atNode : forest.nodes[index]? = some node) :
    digests.digestAt (forestBytes forest hashless) (writtenLayout forest hashless) index entry =
      ok node.digest := by
  have kind : entry.isExternal = node.isExternal := by
    rw [getElem?_entriesFrom, atNode] at atEntry
    cases atEntry
    exact isExternal_new _ _
  rw [digestAt, resolved.slots.2 index entry atEntry, okOr_some, ok_bind, digestSlot, kind]
  cases external : node.isExternal with
  | true => exact externalDigest_written small atNode external
  | false =>
    rw [if_neg Bool.false_ne_true, if_neg Bool.false_ne_true, ForestDigests.internalDigestAt]
    cases hashed : hashless with
    | true =>
      rw [rebuilt hashed]
      dsimp only
      rw [getElem?_map, atNode]
      rfl
    | false =>
      subst hashed
      rw [resolved.present rfl]
      exact nodeHash_written small rfl atNode external

/-- With its digests resolved and its blocks at their offsets, the payload
stands for the forest. -/
theorem materializes_written
    (rebuilt : hashless = true -> digests.hashTable = some (forest.nodes.map digest))
    (recoverable : RecoverableBlocks forest.nodes) :
    Materializes ⟨forestBytes forest hashless, writtenLayout forest hashless, digests⟩
      (entriesFrom 0 forest.nodes) (blockSection forest.nodes) forest where
  length_nodes := (length_entriesFrom 0 forest.nodes).symm
  nodeAt index entry node atEntry atNode := by
    refine ⟨node.digest, nodeDigestForEntry_written small resolved rebuilt atEntry atNode, ?_⟩
    rw [getElem?_entriesFrom, atNode, map_some, zero_add] at atEntry
    cases atEntry
    exact builds_written writable recoverable atNode
  length_roots := rfl
  rootAt index rootId found := readProcedureRootAt_written small writable found
  rootsInside := writable.roots
  denseOrder := writable.order

end Resolved

/-- Once the digests are there, the forest comes back exactly when every block
is found at its offset. -/
theorem intoMaterialized_written {hasher : Hasher} {allocation : Option Nat}
    (resolves : RecoverableBlocks forest.nodes -> ∃ digests,
      new hasher (forestBytes forest hashless) (writtenLayout forest hashless) allocation =
        ok digests ∧ (hashless = true -> digests.hashTable = some (forest.nodes.map digest))) :
    (writtenUntrusted forest hashless allocation).intoMaterialized hasher = ok forest ↔
      RecoverableBlocks forest.nodes := by
  have scanned := scannedLayout_written small writable
  constructor
  · intro materialized
    have again : ScannedLayout (writtenUntrusted forest hashless allocation).bytes
        (writtenUntrusted forest hashless allocation).layout (entriesFrom 0 forest.nodes) := scanned
    rcases intoMaterialized_sound again materialized with ⟨digests, blockData, _, data, valid, _⟩
    have same : blockData = blockSection forest.nodes :=
      ok.inj (data.symm.trans (basicBlockData_written small))
    rw [same] at valid
    exact valid.recoverable
  · intro recoverable
    rcases resolves recoverable with ⟨digests, found, rebuilt⟩
    let read : ResolvedSerializedForest :=
      ⟨forestBytes forest hashless, writtenLayout forest hashless, digests⟩
    have again : ScannedLayout read.bytes read.layout (entriesFrom 0 forest.nodes) := scanned
    have valid := materializes_written small writable (scanned.forestDigests_sound found) rebuilt
      recoverable
    have resolved : ResolvedSerializedForest.new hasher read.bytes read.layout allocation = ok read := by
      rw [ResolvedSerializedForest.new, found, ok_bind]
    refine bind_eq_ok.mpr ⟨_, resolved, ?_⟩
    exact again.materialize_eq_ok.mpr ⟨rfl, _, basicBlockData_written small, valid⟩

/-- Node hashes on the wire need no table. -/
theorem forestDigests_written (hashed : hashless = false) (hasher : Hasher) :
    ∃ digests, new hasher (forestBytes forest hashless)
      (writtenLayout forest hashless) none = ok digests := by
  rcases (scannedLayout_written small writable).buildDigestSlotByNode_eq with ⟨slots, _, built⟩
  have present : (writtenLayout forest hashless).isHashless = false := by
    subst hashed
    rfl
  refine ⟨⟨slots, none⟩, ?_⟩
  rw [ForestDigests.new, built, reserveNodeCapacity, ok_bind, ok_bind]
  dsimp only
  rw [rebuiltTable, present, if_neg Bool.false_ne_true, ok_bind]

/-- The digests of a forest that hashes as it says are a table rebuilt from
its payload. -/
theorem rebuiltTable_written (locally : LocallyHashed hasher forest.nodes)
    (recoverable : RecoverableBlocks forest.nodes) :
    RebuiltTable hasher (forestBytes forest hashless) (writtenLayout forest hashless)
      (blockSection forest.nodes) (entriesFrom 0 forest.nodes)
      (forest.nodes.map digest) := by
  refine ⟨by rw [length_map, length_entriesFrom], fun index entry digest atEntry atTable => ?_⟩
  rw [getElem?_map] at atTable
  rcases map_eq_some_iff.mp atTable with ⟨node, atNode, rfl⟩
  rw [getElem?_entriesFrom, atNode, map_some, zero_add] at atEntry
  cases atEntry
  unfold digestSource
  rw [isExternal_new]
  cases external : node.isExternal with
  | true => exact externalDigest_written small atNode external
  | false =>
    rw [if_neg Bool.false_ne_true]
    have builds := builds_written writable recoverable atNode
    exact (builds.recomputeDigest_iff (by rw [isExternal_new, external])).mpr
      (locally index node atNode)

/-- The default budget is enough for the slots and for the table: seven times
the payload, in which a node takes eight bytes at least, against the 36 bytes
the two tables have for it. -/
theorem forestDigests_rebuilt (hashed : hashless = true)
    (locally : LocallyHashed hasher forest.nodes) (recoverable : RecoverableBlocks forest.nodes) :
    ∃ digests, new hasher (forestBytes forest hashless)
        (writtenLayout forest hashless)
        (some (defaultUntrustedAllocationBudget (forestBytes forest hashless).length)) = ok digests ∧
      digests.hashTable = some (forest.nodes.map MastNode.digest) := by
  have scanned := scannedLayout_written small writable
  have few := writable.length_lt
  have size := @length_forestBytes forest hashless
  have budget : forest.nodes.length * 4 + forest.nodes.length * 32 ≤
      defaultUntrustedAllocationBudget (forestBytes forest hashless).length := by
    have limit : usizeLimit = 2 ^ 64 := rfl
    simp only [adviceStart, hashesStart, externalsStart] at size
    unfold defaultUntrustedAllocationBudget saturatingMul defaultUntrustedAllocationBudgetMultiplier
    omega
  generalize defaultUntrustedAllocationBudget (forestBytes forest hashless).length =
    allowed at budget
  have limit : forest.nodes.length * 32 < usizeLimit :=
    lt_of_lt_of_le (Nat.mul_lt_mul_of_pos_right few (by decide)) (by decide)
  rcases scanned.buildDigestSlotByNode_eq with ⟨slots, _, built⟩
  have slotsReserved := @reserveNodeCapacity_of_le 4 forest.nodes.length _ "digest slot table"
    (show _ ≤ allowed by omega) (by omega)
  have tableReserved := @reserveNodeCapacity_of_le 32 forest.nodes.length _ "hash table"
    (show _ ≤ allowed - forest.nodes.length * 4 by omega) limit
  have table := scanned.recomputeHashTable_complete
    (rebuiltTable_written small writable locally recoverable) (basicBlockData_written small)
    tableReserved
  have absent : (writtenLayout forest hashless).isHashless = true := by
    subst hashed
    rfl
  refine ⟨⟨slots, some (forest.nodes.map digest)⟩, ?_, rfl⟩
  rw [ForestDigests.new, built]
  refine bind_eq_ok.mpr ⟨_, bind_eq_ok.mpr ⟨_, slotsReserved, rfl⟩, ?_⟩
  dsimp only
  rw [rebuiltTable, absent, if_pos rfl, table]
  rfl

end Writable

end Written

end MidenVm.Mast
