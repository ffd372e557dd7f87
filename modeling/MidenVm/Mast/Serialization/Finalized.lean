import MidenVm.Mast.Serialization.BlockCodec
import MidenVm.Mast.Serialization.RoundTrip

namespace MidenVm.Mast

open Foundation Outcome Parser Serde MastForest MastNode
open List hiding Vector

/-!
# Round trips of finalized forests

What the constructors of a forest check makes it writable, and it comes back
from its bytes, with node hashes or without, when the offsets of its blocks are
below `2^32`.  Beyond that the writer truncates without a check, and another
block may be read in a block's place.
-/

/-! ## What is finalized -/

variable {nodes : List MastNode} {node : MastNode}

/-- What every constructor of a forest checks.  Blocks without batches are
refused by their builders. -/
structure ConstructedForest (forest : MastForest) : Prop where
  bounds : validateMastForestPartsBounds forest = ok ()
  order : validateDenseNodeOrder forest.nodes = ok ()
  blocks : forall opBatches digest, MastNode.block opBatches digest ∈ forest.nodes ->
    opBatches ≠ [] ∧ forall batch, batch ∈ opBatches -> BuiltBatch batch

/-- A forest `MastForest::from_parts` returns. -/
structure FinalizedForest (hasher : Hasher) (forest : MastForest) : Prop
    extends ConstructedForest forest where
  valid : forest.validate = ok ()
  hashes : forest.validateNodeHashes hasher = ok ()

theorem ConstructedForest.writable {forest : MastForest} (constructed : ConstructedForest forest) :
    WritableForest forest := by
  have bounds := validateMastForestPartsBounds_eq_ok.mp constructed.bounds
  exact {
    order := validateDenseNodeOrder_eq_ok.mp constructed.order
    bounded := bounds.1
    roots := bounds.2
    blocks := fun opBatches digest member =>
      have built := constructed.blocks opBatches digest member
      ⟨built.1, fun batch inBlock => (built.2 batch inBlock).canonical⟩ }

/-! ## Offsets that fit -/

/-- No offset and no number of batches is truncated. -/
def OffsetsFit (nodes : List MastNode) : Prop :=
  forall (index : Nat) opBatches digest, nodes[index]? = some (MastNode.block opBatches digest) ->
    (blockSection (nodes.take index)).length < 2 ^ 32 ∧ opBatches.length < 2 ^ 32

/-- No number of batches is truncated. -/
def BatchCountsFit (nodes : List MastNode) : Prop :=
  forall opBatches digest, MastNode.block opBatches digest ∈ nodes -> opBatches.length < 2 ^ 32

theorem batchCountsFit_of_recoverable (recoverable : RecoverableBlocks nodes) :
    BatchCountsFit nodes := by
  intro opBatches digest member
  rcases mem_iff_getElem?.mp member with ⟨index, atNode⟩
  exact (decodeOperations_spec (recoverable index opBatches digest atNode)).2

/-- The bytes of a block stand behind those of the nodes before it. -/
theorem blockSection_split {index : Nat} (atNode : nodes[index]? = some node) :
    ∃ back, blockSection nodes = blockSection (nodes.take index) ++ (node.blockData ++ back) := by
  rcases List.getElem?_eq_some_iff.mp atNode with ⟨inside, rfl⟩
  refine ⟨blockSection (nodes.drop (index + 1)), ?_⟩
  have split := take_append_drop index nodes
  rw [drop_eq_getElem_cons inside] at split
  conv_lhs => rw [← split]
  rw [blockSection, flatMap_append, flatMap_cons]
  rfl

theorem length_operations_le (batches : List OpBatch) :
    (operations batches).length ≤ (blockBytes batches).length := by
  have one := length_mul_le_flatMap Operation.writeInto (operations batches) (fun op _ => by
    rw [Operation.length_writeInto]
    exact Operation.minSerializedSize_le op)
  unfold Operation.minSerializedSize at one
  rw [blockBytes, writeVec, length_append, length_append]
  omega

theorem recoverable_of_offsetsFit (canonical : CanonicalBlocks nodes)
    (small : (blockSection nodes).length < usizeLimit) (fit : OffsetsFit nodes) :
    RecoverableBlocks nodes := by
  intro index opBatches digest atNode
  rcases fit index opBatches digest atNode with ⟨offset, few⟩
  rcases blockSection_split atNode with ⟨back, split⟩
  have size := congrArg List.length split
  have ops := length_operations_le opBatches
  rw [length_append, length_append] at size
  dsimp only [blockData] at size split
  rw [Nat.mod_eq_of_lt offset, split]
  exact decodeOperations_blockBytes (canonical opBatches digest (mem_of_getElem? atNode)).2 few
    (by omega) _ _

/-! ## With node hashes -/

section RoundTrips

variable {forest : MastForest} {hasher : Hasher}

/-- A byte vector holds at most `isize::MAX` bytes. -/
def vecLenLimit : Nat := 2 ^ 63

theorem blockSection_small {hashless : Bool}
    (small : (forestBytes forest hashless).length < vecLenLimit) :
    (blockSection forest.nodes).length < usizeLimit := by
  have size := congrArg List.length (@forestBytes_eq forest hashless)
  have limit : vecLenLimit < usizeLimit := by decide
  rw [length_append, length_append] at size
  omega

theorem readFromBytes_written (writable : WritableForest forest)
    (small : (forestBytes forest false).length < vecLenLimit) :
    readFromBytes hasher (forestBytes forest false) = ok forest ↔
      RecoverableBlocks forest.nodes := by
  have fits : (forestBytes forest false).length < usizeLimit := lt_trans small (by decide)
  have covered : (forestBytes forest false).length ≤
      saturatingMul (forestBytes forest false).length trustedByteReadBudgetMultiplier := by
    unfold saturatingMul trustedByteReadBudgetMultiplier usizeLimit
    unfold vecLenLimit at small
    omega
  have decoded :=
    @decode_written forest false fits writable false (fun absurdity => by cases absurdity)
    none _ covered
  have materialized := @intoMaterialized_written forest false fits writable hasher none
    (fun _ => by
      rcases forestDigests_written fits writable rfl hasher with ⟨digests, found⟩
      exact ⟨digests, found, fun absurdity => by cases absurdity⟩)
  rw [readFromBytes, readWhole_eq_ok, ← materialized]
  constructor
  · rintro ⟨after, ran, _⟩
    rw [readFrom, bind_of_ok decoded] at ran
    exact (lift_eq_ok.mp ran).1
  · intro returned
    exact ⟨_, (bind_of_ok decoded).trans (lift_eq_ok.mpr ⟨returned, rfl⟩), hasMoreBytes_written _⟩

/-! ## Without node hashes -/

/-- Reading never fails; what can go wrong is left to validation. -/
theorem untrusted_readFromBytes_written (writable : WritableForest forest)
    (small : (forestBytes forest true).length < usizeLimit) :
    UntrustedMastForest.readFromBytes (forestBytes forest true) =
      ok (writtenUntrusted forest true
        (some (defaultUntrustedAllocationBudget (forestBytes forest true).length))) :=
  readWhole_eq_ok.mpr ⟨_, decode_written small writable (fun _ => rfl) _ (le_refl _),
    hasMoreBytes_written _⟩

theorem validate_written (finalized : FinalizedForest hasher forest)
    (small : (forestBytes forest true).length < usizeLimit) :
    (writtenUntrusted forest true
        (some (defaultUntrustedAllocationBudget (forestBytes forest true).length))).validate
        hasher = ok forest ↔
      RecoverableBlocks forest.nodes := by
  have writable := finalized.toConstructedForest.writable
  have locally := validateNodeHashes_eq_ok.mp finalized.hashes
  rw [← @intoMaterialized_written forest true small writable hasher
    (some (defaultUntrustedAllocationBudget (forestBytes forest true).length)) (fun recoverable => by
      rcases forestDigests_rebuilt small writable rfl locally recoverable with
        ⟨digests, found, table⟩
      exact ⟨digests, found, fun _ => table⟩)]
  unfold UntrustedMastForest.validate
  rw [bind_eq_ok]
  constructor
  · rintro ⟨found, materialized, validated⟩
    rcases bind_unit_eq_ok.mp validated with ⟨_, validated⟩
    rcases bind_unit_eq_ok.mp validated with ⟨_, same⟩
    cases same
    exact mapErr_eq_ok.mp materialized
  · intro materialized
    refine ⟨forest, mapErr_eq_ok.mpr materialized, ?_⟩
    have skipped : UntrustedMastForest.validateWireHashes hasher
        (writtenUntrusted forest true
          (some (defaultUntrustedAllocationBudget (forestBytes forest true).length))).layout.isHashless
        forest = ok () := rfl
    rw [skipped, ok_bind, finalized.valid, ok_bind]

end RoundTrips

/-! ## An offset that does not fit -/

/-- A batch of the same operation six times; `code` is its group. -/
def sixTimes (op : Operation) (code : Felt) : OpBatch where
  ops := List.replicate 6 op
  indptr := #v[0, 6, 6, 6, 6, 6, 6, 6, 6]
  padding := Vector.replicate 8 false
  groups := #v[code, 0, 0, 0, 0, 0, 0, 0]
  numGroups := 1

def sixAdds : List OpBatch := [sixTimes .add 1177429774626]

def sixMuls : List OpBatch := [sixTimes .mul 1212060062115]

/-- Many blocks of additions and then one of multiplications. -/
def manyBlocks (count : Nat) : MastForest where
  nodes := List.replicate count (.block sixAdds (sumHasher.block sixAdds)) ++
    [.block sixMuls (sumHasher.block sixMuls)]
  roots := [count]
  adviceMap := OrderedMap.empty

section ManyBlocks

variable {count : Nat}

theorem mem_manyBlocks (member : node ∈ (manyBlocks count).nodes) :
    ∃ opBatches, (opBatches = sixAdds ∨ opBatches = sixMuls) ∧
      node = .block opBatches (sumHasher.block opBatches) := by
  rcases mem_append.mp member with early | last
  · exact ⟨sixAdds, .inl rfl, (mem_replicate.mp early).2⟩
  · exact ⟨sixMuls, .inr rfl, mem_singleton.mp last⟩

theorem manyBlocks_finalized (few : count < maxNodes) :
    FinalizedForest sumHasher (manyBlocks count) where
  bounds := by
    apply validateMastForestPartsBounds_eq_ok.mpr
    simp only [manyBlocks, length_append, length_replicate, length_singleton, mem_singleton]
    exact ⟨few, fun rootId root => by omega⟩
  order := by
    apply validateDenseNodeOrder_eq_ok.mpr
    refine ⟨pairwise_of_forall_mem_list ?_, ?_, ?_⟩
    · intro left leftIn right rightIn
      rcases mem_manyBlocks leftIn with ⟨_, _, rfl⟩
      rcases mem_manyBlocks rightIn with ⟨_, _, rfl⟩
      exact le_refl _
    · rw [filterMap_eq_nil_iff.mpr]
      · exact List.Pairwise.nil
      · intro node member
        rcases mem_manyBlocks member with ⟨_, _, rfl⟩
        rfl
    · intro nodeId node atNode childId child
      rcases mem_manyBlocks (mem_of_getElem? atNode) with ⟨_, _, rfl⟩
      cases child
  blocks opBatches digest member := by
    have adds : (batchOps (List.replicate 6 .add) : Outcome MastForestError _) = ok sixAdds := by
      decide +kernel
    have muls : (batchOps (List.replicate 6 .mul) : Outcome MastForestError _) = ok sixMuls := by
      decide +kernel
    rcases mem_manyBlocks member with ⟨_, rfl | rfl, same⟩
    · cases same
      exact ⟨cons_ne_nil _ _, fun batch inBlock => .inl ⟨_, _, adds, inBlock⟩⟩
    · cases same
      exact ⟨cons_ne_nil _ _, fun batch inBlock => .inl ⟨_, _, muls, inBlock⟩⟩
  valid := by
    have adds : validateBatchInvariants sixAdds = ok () := by decide +kernel
    have muls : validateBatchInvariants sixMuls = ok () := by decide +kernel
    apply validate_eq_ok.mpr
    intro nodeId node atNode
    have inside := (List.getElem?_eq_some_iff.mp atNode).1
    simp only [manyBlocks, length_append, length_replicate, length_singleton] at inside
    have small : maxNodes < 2 ^ 32 := by decide
    refine ⟨by omega, fun opBatches digest block => ?_⟩
    rcases mem_manyBlocks (mem_of_getElem? atNode) with ⟨_, rfl | rfl, same⟩
    · cases same.symm.trans block
      exact adds
    · cases same.symm.trans block
      exact muls
  hashes := by
    apply validateNodeHashes_eq_ok.mpr
    intro nodeId node atNode
    rcases mem_manyBlocks (mem_of_getElem? atNode) with ⟨_, _, rfl⟩
    rfl

theorem length_blockData_manyBlocks (member : node ∈ (manyBlocks count).nodes) :
    node.blockData.length = 16 := by
  have adds : (blockBytes sixAdds).length = 16 := by decide +kernel
  have muls : (blockBytes sixMuls).length = 16 := by decide +kernel
  rcases mem_manyBlocks member with ⟨_, rfl | rfl, rfl⟩
  · exact adds
  · exact muls

/-- When the bytes in front of the last block are a multiple of `2^32`, its
offset is stored as zero, where the first block is. -/
theorem not_recoverable_manyBlocks (positive : 0 < count) (wraps : count * 16 % 2 ^ 32 = 0) :
    ¬ RecoverableBlocks (manyBlocks count).nodes := by
  intro recoverable
  have last : (manyBlocks count).nodes[count]? =
      some (.block sixMuls (sumHasher.block sixMuls)) := by
    simp [manyBlocks]
  have first : (manyBlocks count).nodes[0]? = some (.block sixAdds (sumHasher.block sixAdds)) := by
    rw [manyBlocks, getElem?_append_left (by simpa using positive), getElem?_replicate,
      if_pos positive]
  have offset : (blockSection ((manyBlocks count).nodes.take count)).length = count * 16 := by
    have size := length_flatMap_of_sized blockData ((manyBlocks count).nodes.take count)
      (fun node member => length_blockData_manyBlocks (mem_of_mem_take member))
    rwa [length_take, Nat.min_eq_left (le_of_lt (List.getElem?_eq_some_iff.mp last).1)]
      at size
  have found := recoverable count _ _ last
  rw [offset, wraps] at found
  rcases blockSection_split first with ⟨back, split⟩
  rw [take_zero] at split
  have canonical : forall batch, batch ∈ sixAdds -> CanonicalBatch batch := by
    have adds : (batchOps (List.replicate 6 .add) : Outcome MastForestError _) = ok sixAdds := by
      decide +kernel
    exact fun batch inBlock => BuiltBatch.canonical (.inl ⟨_, _, adds, inBlock⟩)
  have decoded := decodeOperations_blockBytes canonical (by decide) (by decide) [] back
  rw [split] at found
  have same : sixAdds = sixMuls := ok.inj (decoded.symm.trans found)
  exact absurd same (by decide +kernel)

theorem length_manyBlocks_le (hashless : Bool) :
    (forestBytes (manyBlocks count) hashless).length ≤ (count + 1) * 56 + 64 := by
  have nodes : (manyBlocks count).nodes.length = count + 1 := by simp [manyBlocks]
  have blocks : (blockSection (manyBlocks count).nodes).length = (count + 1) * 16 := by
    rw [← nodes]
    exact length_flatMap_of_sized blockData (manyBlocks count).nodes
      (fun node member => length_blockData_manyBlocks member)
  have externals : externalCount (manyBlocks count).nodes = 0 := by
    apply countP_eq_zero.mpr
    intro node member
    rcases mem_manyBlocks member with ⟨_, _, rfl⟩
    exact Bool.false_ne_true
  have hashes : hashLength hashless (internalCount (manyBlocks count).nodes) ≤ (count + 1) * 32 := by
    unfold internalCount hashLength
    rw [nodes, externals]
    cases hashless <;> simp
  have advice : (manyBlocks count).adviceMap.writeInto.length = 1 := by
    change (AdviceMap.writeInto OrderedMap.empty).length = 1
    decide +kernel
  have internalSize := length_writeUsize_le (internalCount (manyBlocks count).nodes)
  have externalSize := length_writeUsize_le (externalCount (manyBlocks count).nodes)
  have rootsSize := length_writeUsize_le (manyBlocks count).roots.length
  have dataSize := length_writeUsize_le (blockSection (manyBlocks count).nodes).length
  have roots : (manyBlocks count).roots.length = 1 := rfl
  rw [length_forestBytes, advice]
  simp only [adviceStart, hashesStart, externalsStart, entriesStart, blocksStart, rootsStart, nodes]
  omega

end ManyBlocks

/-! ## A small forest -/

theorem joinForest_finalized : FinalizedForest sumHasher joinForest where
  bounds := by decide +kernel
  order := by decide +kernel
  valid := by decide +kernel
  hashes := by decide +kernel
  blocks opBatches digest member := by
    have batched : (batchOps [.add] : Outcome MastForestError _) = ok [{
        ops := [.add]
        indptr := #v[0, 1, 1, 1, 1, 1, 1, 1, 1]
        padding := Vector.replicate 8 false
        groups := #v[34, 0, 0, 0, 0, 0, 0, 0]
        numGroups := 1 }] := by decide +kernel
    rcases mem_cons.mp member with same | member
    · cases same
      exact ⟨cons_ne_nil _ _, fun batch inBlock => .inl ⟨_, _, batched, inBlock⟩⟩
    · cases mem_singleton.mp member

theorem joinForest_offsetsFit : OffsetsFit joinForest.nodes := by
  intro index opBatches digest atNode
  match index, atNode with
  | 0, same =>
    cases same
    exact ⟨by decide, by decide⟩
  | 1, same => cases same

/-- The bytes of the small forest with its node hashes. -/
def joinPayload : List UInt8 := forestBytes joinForest false

/-! ## Both round trips -/

/-- A forest is written without an abort, and reading its bytes returns it when
no offset and no number of batches reaches `2^32`.  A number of batches that
does is never read back; an offset may be, when the same block stands at the
truncated one. -/
theorem forest_read_back (hasher : Hasher) {forest : MastForest}
    (constructed : ConstructedForest forest) :
    ∃ bytes, (forest.writeInto : Outcome MastForestError _) = ok bytes ∧
      (bytes.length < vecLenLimit ->
        (OffsetsFit forest.nodes -> MastForest.readFromBytes hasher bytes = ok forest) ∧
        (MastForest.readFromBytes hasher bytes = ok forest -> BatchCountsFit forest.nodes)) := by
  have writable := constructed.writable
  refine ⟨forestBytes forest false, writable.writeIntoWithOptions_eq false, fun small => ?_⟩
  have recovers := @readFromBytes_written forest hasher writable small
  exact ⟨fun fit => recovers.mpr (recoverable_of_offsetsFit writable.blocks (blockSection_small small) fit),
    fun returned => batchCountsFit_of_recoverable (recovers.mp returned)⟩

theorem truncated_offset_not_read_back :
    FinalizedForest sumHasher (manyBlocks (2 ^ 28)) ∧
      ∃ bytes, ((manyBlocks (2 ^ 28)).writeInto : Outcome MastForestError _) = ok bytes ∧
        bytes.length < vecLenLimit ∧
        MastForest.readFromBytes sumHasher bytes ≠ ok (manyBlocks (2 ^ 28)) := by
  have finalized := @manyBlocks_finalized (2 ^ 28) (by decide)
  have writable := finalized.toConstructedForest.writable
  have size := lt_of_le_of_lt (@length_manyBlocks_le (2 ^ 28) false)
    (show (2 ^ 28 + 1) * 56 + 64 < vecLenLimit by decide)
  refine ⟨finalized, _, writable.writeIntoWithOptions_eq false, size, fun returned => ?_⟩
  exact not_recoverable_manyBlocks (by decide) (by decide)
    ((readFromBytes_written writable size).mp returned)

theorem forest_read_back_join :
    ∃ bytes, (joinForest.writeInto : Outcome MastForestError _) = ok bytes ∧
      bytes.length < vecLenLimit ∧ MastForest.readFromBytes sumHasher bytes = ok joinForest := by
  rcases forest_read_back sumHasher joinForest_finalized.toConstructedForest with
    ⟨bytes, written, back⟩
  have known : (joinForest.writeInto : Outcome MastForestError _) = ok joinPayload := by
    decide +kernel
  cases written.symm.trans known
  have size : joinPayload.length < vecLenLimit := by decide +kernel
  exact ⟨_, known, size, (back size).1 joinForest_offsetsFit⟩

/-- A finalized forest is written without node hashes and read back under the
default budgets; validation then returns it when no offset and no number of
batches reaches `2^32`. -/
theorem hashless_forest_validates (hasher : Hasher) {forest : MastForest}
    (finalized : FinalizedForest hasher forest) :
    ∃ bytes, (forest.writeHashlessInto : Outcome MastForestError _) = ok bytes ∧
      (bytes.length < vecLenLimit -> ∃ untrusted,
        UntrustedMastForest.readFromBytes bytes = ok untrusted ∧
        (OffsetsFit forest.nodes -> untrusted.validate hasher = ok forest) ∧
        (untrusted.validate hasher = ok forest -> BatchCountsFit forest.nodes)) := by
  have writable := finalized.toConstructedForest.writable
  refine ⟨forestBytes forest true, writable.writeIntoWithOptions_eq true, fun small => ?_⟩
  have fits := lt_trans small (show vecLenLimit < usizeLimit by decide)
  have recovers := validate_written finalized fits
  exact ⟨_, untrusted_readFromBytes_written writable fits,
    fun fit => recovers.mpr (recoverable_of_offsetsFit writable.blocks (blockSection_small small) fit),
    fun validated => batchCountsFit_of_recoverable (recovers.mp validated)⟩

theorem truncated_offset_not_validated :
    FinalizedForest sumHasher (manyBlocks (2 ^ 28)) ∧
      ∃ bytes untrusted,
        ((manyBlocks (2 ^ 28)).writeHashlessInto : Outcome MastForestError _) = ok bytes ∧
        bytes.length < vecLenLimit ∧ UntrustedMastForest.readFromBytes bytes = ok untrusted ∧
        untrusted.validate sumHasher ≠ ok (manyBlocks (2 ^ 28)) := by
  have finalized := @manyBlocks_finalized (2 ^ 28) (by decide)
  have writable := finalized.toConstructedForest.writable
  have size := lt_of_le_of_lt (@length_manyBlocks_le (2 ^ 28) true)
    (show (2 ^ 28 + 1) * 56 + 64 < vecLenLimit by decide)
  have fits := lt_trans size (show vecLenLimit < usizeLimit by decide)
  refine ⟨finalized, _, _, writable.writeIntoWithOptions_eq true, size,
    untrusted_readFromBytes_written writable fits, fun returned => ?_⟩
  exact not_recoverable_manyBlocks (by decide) (by decide)
    ((validate_written finalized fits).mp returned)

theorem hashless_forest_validates_join :
    ∃ bytes untrusted, (joinForest.writeHashlessInto : Outcome MastForestError _) = ok bytes ∧
      UntrustedMastForest.readFromBytes bytes = ok untrusted ∧
      untrusted.validate sumHasher = ok joinForest := by
  rcases hashless_forest_validates sumHasher joinForest_finalized with ⟨bytes, written, back⟩
  have known : (joinForest.writeHashlessInto : Outcome MastForestError _) = ok hashlessPayload := by
    decide +kernel
  cases written.symm.trans known
  rcases back (by decide) with ⟨untrusted, read, validated, _⟩
  exact ⟨_, untrusted, known, read, validated joinForest_offsetsFit⟩

end MidenVm.Mast
