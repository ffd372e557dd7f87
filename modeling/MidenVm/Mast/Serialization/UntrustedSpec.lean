import MidenVm.Mast.Serialization.Forest
import MidenVm.Mast.Serialization.ResolvedSpec

namespace MidenVm.Mast

open Foundation Outcome Parser Serde UntrustedMastForest ResolvedSerializedForest

/-!
# Untrusted input

Whatever bytes are given, reading and validating them returns or reports an
error.  A forest that comes out satisfies everything later stages rely on:
ids in bounds, children before parents, the dense order, valid batches, and
digests that are the hashes of the structures below them.
-/

/-! ## Reading -/

variable {untrusted : UntrustedMastForest} {entries : List MastNodeEntry} {hasher : Hasher}
  {forest : MastForest} (allowHashless : Bool)

/-- Reading without the debug assertion, which cannot fail. -/
def decodeUnasserted (remainingAllocationBudget : Option Nat) :
    Reader UntrustedMastForest := do
  let layout ← readHeaderAndScanLayout allowHashless
  let adviceMap ← AdviceMap.readFrom
  let bytes ← recorded
  pure { bytes, layout, adviceMap, remainingAllocationBudget }

theorem decodeTracked_eq (budget : Option Nat) :
    decodeTracked allowHashless budget = decodeUnasserted allowHashless budget := by
  funext source
  rw [decodeTracked, decodeUnasserted, bind_apply, bind_apply]
  cases scanned : readHeaderAndScanLayout allowHashless source with
  | err error => rfl
  | panic => rfl
  | ok result =>
    rcases result with ⟨layout, after⟩
    have stopped := (scannedLayout_of_readHeader scanned []).1
    have positioned : (position : Reader Nat) after = ok (after.consumed.length, after) := rfl
    rw [ok_bind, ok_bind]
    dsimp only
    rw [bind_of_ok positioned, require_of stopped, bind_of_ok (lift_apply () after)]

theorem recorded_wellBehaved : WellBehaved recorded := .look (fun _ => rfl)

theorem decodeFromReaderInner_wellBehaved (budget : Option Nat) :
    WellBehaved (decodeFromReaderInner allowHashless budget) := by
  rw [decodeFromReaderInner, decodeTracked_eq]
  exact ((readHeaderAndScanLayout_wellBehaved allowHashless).bind fun _ =>
    AdviceMap.readFrom_wellBehaved.bind fun _ => recorded_wellBehaved.bind fun _ =>
      .pure _).tracked

/-- The bytes that were recorded are described by the layout. -/
theorem scannedLayout_of_decode {allowHashless : Bool} {budget : Option Nat}
    {source after : ByteReader}
    (ran : decodeFromReaderInner allowHashless budget source = ok (untrusted, after)) :
    ∃ entries, ScannedLayout untrusted.bytes untrusted.layout entries := by
  rcases tracked_eq_ok.mp ran with ⟨inner, ran, _⟩
  rw [decodeTracked_eq] at ran
  rcases seq_eq_ok.mp ran with ⟨layout, scannedAt, scanned, ran⟩
  rcases seq_eq_ok.mp ran with ⟨adviceMap, readTo, adviceRead, ran⟩
  rcases seq_eq_ok.mp ran with ⟨bytes, _, kept, done⟩
  cases kept
  cases done
  rcases AdviceMap.readFrom_wellBehaved.advances adviceRead with ⟨count, _, rfl⟩
  exact (scannedLayout_of_readHeader scanned _).2

theorem readWhole_ne_panic {α : Type} {reader : Reader α} (behaved : WellBehaved reader)
    (bytes : List UInt8) (budget : Nat) : readWhole reader bytes budget ≠ panic := by
  apply bind_ne_panic (behaved.neverPanics _)
  rintro ⟨value, after⟩ _
  exact bind_ok_ne_panic (ensure_ne_panic _ _) _

theorem readWhole_eq_ok {α : Type} {reader : Reader α} {bytes : List UInt8} {budget : Nat}
    {value : α} :
    readWhole reader bytes budget = ok value ↔
      ∃ after, reader (Source.new bytes (some budget)) = ok (value, after) ∧
        hasMoreBytes after = false := by
  rw [readWhole, bind_eq_ok]
  constructor
  · rintro ⟨⟨found, after⟩, ran, checked⟩
    rcases bind_unit_eq_ok.mp checked with ⟨ended, same⟩
    cases same
    exact ⟨after, ran, ensure_eq_ok.mp ended⟩
  · rintro ⟨after, ran, ended⟩
    refine ⟨(value, after), ran, ?_⟩
    dsimp only
    rw [ensure_of ended, ok_bind]

/-! ## Validation -/

/-- What a validated forest guarantees. -/
structure WellFormedForest (hasher : Hasher) (forest : MastForest) : Prop where
  rootsInBounds : forall rootId, rootId ∈ forest.roots -> rootId < forest.nodes.length
  childrenInBounds : forall (nodeId : Nat) (node : MastNode), forest.nodes[nodeId]? = some node ->
    forall childId, childId ∈ node.children -> childId < forest.nodes.length
  childrenFirst : forall (nodeId : Nat) (node : MastNode), forest.nodes[nodeId]? = some node ->
    forall childId, childId ∈ node.children -> childId < nodeId
  denseOrder : DenseOrder forest.nodes
  validBlocks : forall (nodeId : Nat) opBatches digest,
    forest.nodes[nodeId]? = some (MastNode.block opBatches digest) ->
      validateBatchInvariants opBatches = ok ()
  hashed : forall (nodeId : Nat) (node : MastNode), forest.nodes[nodeId]? = some node ->
    ∃ tree, Unfolds forest.nodes nodeId tree ∧ node.digest = tree.digest hasher

theorem intoMaterialized_ne_panic (hasher : Hasher)
    (scanned : ScannedLayout untrusted.bytes untrusted.layout entries) :
    untrusted.intoMaterialized hasher ≠ panic := by
  apply bind_ne_panic
  · exact bind_ok_ne_panic (scanned.forestDigests_ne_panic _) _
  · intro resolved _
    exact ScannedLayout.materialize_ne_panic resolved hasher untrusted.adviceMap

/-- A materialized forest, with where its digests come from. -/
theorem intoMaterialized_sound (scanned : ScannedLayout untrusted.bytes untrusted.layout entries)
    (materialized : untrusted.intoMaterialized hasher = ok forest) :
    ∃ digests blockData,
      ResolvedDigests hasher untrusted.bytes untrusted.layout entries digests ∧
      basicBlockData untrusted.bytes untrusted.layout.basicBlockOffset
        untrusted.layout.basicBlockLen = ok blockData ∧
      Materializes ⟨untrusted.bytes, untrusted.layout, digests⟩ entries blockData forest ∧
      forest.adviceMap = untrusted.adviceMap := by
  rcases bind_eq_ok.mp materialized with ⟨resolved, ran, materialized⟩
  rcases bind_eq_ok.mp ran with ⟨digests, found, same⟩
  cases same
  have scannedAgain : ScannedLayout
      (mk untrusted.bytes untrusted.layout digests).bytes
      (mk untrusted.bytes untrusted.layout digests).layout entries := scanned
  rcases scannedAgain.materialize_eq_ok.mp materialized with ⟨advice, blockData, data, valid⟩
  exact ⟨digests, blockData, scanned.forestDigests_sound found, data, valid, advice⟩

theorem validate_ne_panic (hasher : Hasher)
    (scanned : ScannedLayout untrusted.bytes untrusted.layout entries) :
    untrusted.validate hasher ≠ panic := by
  apply bind_ne_panic
  · rw [ne_eq, mapErr_eq_panic]
    exact intoMaterialized_ne_panic hasher scanned
  · intro forest materialized
    rcases intoMaterialized_sound scanned (mapErr_eq_ok.mp materialized) with
      ⟨digests, blockData, _, _, valid, _⟩
    apply bind_ne_panic
    · unfold validateWireHashes
      split
      · simp
      · exact forest.validateNodeHashes_ne_panic hasher
    · intro _ _
      refine bind_ok_ne_panic (forest.validate_ne_panic ?_) _
      rw [valid.length_nodes, scanned.length_entries]
      exact scanned.bounded

theorem validate_sound (scanned : ScannedLayout untrusted.bytes untrusted.layout entries)
    (validated : untrusted.validate hasher = ok forest) : WellFormedForest hasher forest := by
  rcases bind_eq_ok.mp validated with ⟨found, materialized, validated⟩
  rcases bind_unit_eq_ok.mp validated with ⟨wireHashes, validated⟩
  rcases bind_unit_eq_ok.mp validated with ⟨blocks, same⟩
  cases same
  rcases intoMaterialized_sound scanned (mapErr_eq_ok.mp materialized) with
    ⟨digests, blockData, resolved, data, valid, _⟩
  have locally : LocallyHashed hasher forest.nodes := by
    unfold validateWireHashes at wireHashes
    cases hashless : untrusted.layout.isHashless with
    | true => exact Materializes.locallyHashed resolved hashless data valid
    | false =>
      rw [hashless, if_neg Bool.false_ne_true] at wireHashes
      exact MastForest.validateNodeHashes_eq_ok.mp wireHashes
  exact {
    rootsInBounds := valid.rootsInside
    childrenInBounds := fun nodeId node atNode childId child =>
      lt_trans (valid.denseOrder.backward nodeId node atNode childId child)
        (List.getElem?_eq_some_iff.mp atNode).1
    childrenFirst := valid.denseOrder.backward
    denseOrder := valid.denseOrder
    validBlocks := fun nodeId opBatches digest atNode =>
      (MastForest.validate_eq_ok.mp blocks nodeId _ atNode).2 opBatches digest rfl
    hashed := locally.digest_eq }

/-- Reading any bytes, under any budgets, and validating what was read ends
without an abort, and a forest it returns is well formed.  The same holds for
reading from the middle of a source that is not budgeted. -/
theorem untrusted_input_validated (hasher : Hasher) :
    (forall bytes options,
      UntrustedMastForest.readFromBytesWithOptions bytes options ≠ panic ∧
      forall untrusted,
        UntrustedMastForest.readFromBytesWithOptions bytes options = ok untrusted ->
          untrusted.validate hasher ≠ panic ∧
          forall forest, untrusted.validate hasher = ok forest -> WellFormedForest hasher forest) ∧
    (forall source,
      UntrustedMastForest.readFromReader source ≠ panic ∧
      forall untrusted after,
        UntrustedMastForest.readFromReader source = ok (untrusted, after) ->
          untrusted.validate hasher ≠ panic ∧
          forall forest, untrusted.validate hasher = ok forest ->
            WellFormedForest hasher forest) := by
  have behaved := fun budget => decodeFromReaderInner_wellBehaved true budget
  refine ⟨fun bytes options => ⟨readWhole_ne_panic (behaved _) _ _, fun untrusted read => ?_⟩,
    fun source => ⟨(behaved none).neverPanics source, fun untrusted after read => ?_⟩⟩
  · rcases readWhole_eq_ok.mp read with ⟨after, ran, _⟩
    rcases scannedLayout_of_decode ran with ⟨entries, scanned⟩
    exact ⟨validate_ne_panic hasher scanned, fun forest validated => validate_sound scanned validated⟩
  · rcases scannedLayout_of_decode read with ⟨entries, scanned⟩
    exact ⟨validate_ne_panic hasher scanned, fun forest validated => validate_sound scanned validated⟩

/-! ## A small payload -/

/-- A hash function that can be evaluated. -/
def sumHasher : Hasher where
  hashElements elements := ⟨elements.sum, elements.length, 0, 0⟩
  mergeInDomain left right domain := ⟨left.a + 2 * right.a + domain, 1, 0, 0⟩
  mergeMany words := ⟨words.length, 0, 0, 0⟩

/-- A block of one addition, joined with itself. -/
def joinForest : MastForest where
  nodes := [
    .block [{
      ops := [.add]
      indptr := ⟨#[0, 1, 1, 1, 1, 1, 1, 1, 1], by decide⟩
      padding := Vector.replicate 8 false
      groups := #v[34, 0, 0, 0, 0, 0, 0, 0]
      numGroups := 1 }] ⟨34, 8, 0, 0⟩,
    .join 0 0 ⟨189, 1, 0, 0⟩]
  roots := [1]
  adviceMap := OrderedMap.empty

/-- Its bytes without node hashes. -/
def hashlessPayload : List UInt8 := [
  77, 65, 83, 84, 2, 0, 0, 4, 5, 1, 3, 1, 0, 0, 0, 23, 3, 34, 1, 0, 0, 0, 1, 0, 0, 0, 0,
  0, 0, 0, 0, 0, 0, 0, 48, 0, 0, 0, 0, 0, 0, 0, 0, 1]

def hashlessRead : UntrustedMastForest where
  bytes := hashlessPayload
  layout := {
    nodeCount := 2, internalNodeCount := 2, externalNodeCount := 0, rootsCount := 1
    rootsOffset := 11, basicBlockOffset := 16, basicBlockLen := 11, nodeEntryOffset := 27
    externalDigestOffset := 43, nodeHashOffset := none, adviceMapOffset := 43 }
  adviceMap := OrderedMap.empty
  remainingAllocationBudget := some 308

theorem untrusted_input_validated_join :
    UntrustedMastForest.readFromBytesWithOptions hashlessPayload {} = ok hashlessRead ∧
      hashlessRead.validate sumHasher = ok joinForest ∧
      WellFormedForest sumHasher joinForest := by
  have read : readFromBytesWithOptions hashlessPayload {} = ok hashlessRead := by decide +kernel
  have validated : hashlessRead.validate sumHasher = ok joinForest := by decide +kernel
  exact ⟨read, validated,
    (((untrusted_input_validated sumHasher).1 hashlessPayload {}).2 _ read).2 _ validated⟩

end MidenVm.Mast
