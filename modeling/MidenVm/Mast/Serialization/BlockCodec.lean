import MidenVm.Mast.Serialization.BlockSpec

namespace MidenVm.Mast

open Foundation Outcome Parser Serde
open List hiding Vector

/-!
# Blocks that come back from their bytes

The elements of a batch are determined by its operations and boundaries: a
group of operations is packed in its own slot and its immediates stand in the
slots behind it.  Whatever the decoder returns has this form.  What batching
produces is written in the announced number of bytes and comes back, unless the
number of batches is cut off at 32 bits.
-/

variable {batch : OpBatch} {batches : List OpBatch} {groups : Vector Felt 8} {count : Nat}

/-! ## The elements of a batch -/

/-- The elements of one group: its opcodes in base 128, and its immediates. -/
def groupElements (ops : List Operation) : List Felt :=
  Felt.newUnchecked (Nat.ofDigits 128 (ops.map Operation.opCode)) :: immediates ops

/-- The groups before `count` determine the elements.  No operations stand where
an immediate does, and slots that no group reaches are zero. -/
structure Determined (batch : OpBatch) (count : Nat) (groups : Vector Felt 8) : Prop where
  free : forall groupIdx j, groupIdx < count -> batch.groupOps groupIdx ≠ [] ->
    j < (immediates (batch.groupOps groupIdx)).length -> batch.groupOps (groupIdx + 1 + j) = []
  elements : forall groupIdx j value, groupIdx < count -> batch.groupOps groupIdx ≠ [] ->
    (groupElements (batch.groupOps groupIdx))[j]? = some value -> groups[groupIdx + j]? = some value
  zero : forall index (inRange : index < 8),
    (forall groupIdx, groupIdx < count -> groupIdx ≤ index -> batch.groupOps groupIdx ≠ [] ->
      groupIdx + (groupElements (batch.groupOps groupIdx)).length ≤ index) -> groups[index] = 0

theorem withGroup_eq (groups : Vector Felt 8) (groupIdx : Nat) (ops : List Operation) :
    withGroup groups groupIdx ops = overlay groups groupIdx (groupElements ops) := by
  rw [withGroup, packFrom_zero, groupElements]

/-- Groups without operations determine nothing more. -/
theorem Determined.extend (done : Determined batch count groups) {more : Nat} (wider : count ≤ more)
    (empty : forall groupIdx, groupIdx < more -> batch.groupOps groupIdx ≠ [] -> groupIdx < count) :
    Determined batch more groups :=
  ⟨fun groupIdx j bound nonempty => done.free groupIdx j (empty groupIdx bound nonempty) nonempty,
    fun groupIdx j value bound nonempty => done.elements groupIdx j value (empty groupIdx bound nonempty) nonempty,
    fun index inBatch silent => done.zero index inBatch (fun groupIdx bound =>
      silent groupIdx (Nat.lt_of_lt_of_le bound wider))⟩

/-- A group with operations lies behind all that the groups before it take. -/
theorem Determined.apart (done : Determined batch count groups) (some : batch.groupOps count ≠ [])
    {groupIdx : Nat} (before : groupIdx < count) (nonempty : batch.groupOps groupIdx ≠ []) :
    groupIdx + (groupElements (batch.groupOps groupIdx)).length ≤ count := by
  by_contra reached
  rw [groupElements, length_cons] at reached
  have empty := done.free groupIdx (count - (groupIdx + 1)) before nonempty (by omega)
  rw [Nat.add_sub_cancel' before] at empty
  exact some empty

theorem Determined.step {state next : Vector Felt 8 × Nat} (done : Determined batch count state.1)
    (valid : StructuredBatch batch) (inRange : count < 8)
    (ran : rebuildGroup batch.ops batch.indptr state count = ok next) :
    Determined batch (count + 1) next.1 := by
  rcases (rebuildGroup_eq_ok valid inRange).mp ran with ⟨empty, rfl⟩ | ⟨some, slots, rfl⟩
  · refine done.extend (Nat.le_succ count) (fun groupIdx bound nonempty => ?_)
    exact Nat.lt_of_le_of_ne (Nat.le_of_lt_succ bound) (fun same => nonempty (same ▸ empty))
  · have room := slots_room inRange slots
    dsimp only
    rw [withGroup_eq]
    refine ⟨fun groupIdx j bound nonempty inside => ?_,
      fun groupIdx j value bound nonempty found => ?_, fun index inBatch silent => ?_⟩
    · rcases Nat.lt_succ_iff_lt_or_eq.mp bound with before | rfl
      · exact done.free groupIdx j before nonempty inside
      · exact (valid.groupOps_eq_nil (slots j inside).1).mpr (slots j inside).2.2
    · have short := (List.getElem?_eq_some_iff.mp found).1
      rcases Nat.lt_succ_iff_lt_or_eq.mp bound with before | rfl
      · have ends := done.apart some before nonempty
        rcases Vector.getElem?_eq_some_iff.mp (done.elements groupIdx j value before nonempty found) with
          ⟨inBatch, kept⟩
        rw [Vector.getElem?_eq_getElem inBatch, getElem_overlay _ _ _ inBatch,
          if_neg (by omega), kept]
      · rw [groupElements, length_cons] at short
        rw [Vector.getElem?_eq_getElem (by omega), getElem_overlay _ _ _ (by omega),
          if_pos (Nat.le_add_right _ _), Nat.add_sub_cancel_left, getD_eq_getElem?_getD, found,
          Option.getD_some]
    · have kept :=
        done.zero index inBatch (fun groupIdx bound => silent groupIdx (Nat.lt_succ_of_lt bound))
      rw [getElem_overlay _ _ _ inBatch, kept]
      split
      · rename_i behind
        have ends := silent count (Nat.lt_succ_self count) behind some
        rw [getD_eq_getElem?_getD, getElem?_eq_none (by omega), Option.getD_none]
      · rfl

/-- The elements of a canonical batch are those that all its groups determine. -/
theorem CanonicalBatch.determined (canonical : CanonicalBatch batch) :
    Determined batch 8 batch.groups := by
  have valid := canonical.structured
  rcases highestOpGroup_spec valid.monotone with ⟨upper, flat⟩
  have done : Determined (bareBatch batch.ops batch.indptr) (highestOpGroup batch.indptr) batch.groups := by
    have folded := foldlM_invariant
      (fun count (state : Vector Felt 8 × Nat) => Determined (bareBatch batch.ops batch.indptr) count state.1)
      (fun count item state next found done ran => by
        rcases getElem?_range_eq_some.mp found with ⟨inLoop, rfl⟩
        exact done.step valid (Nat.lt_of_lt_of_le inLoop upper) ran)
      ⟨fun groupIdx j none => absurd none (Nat.not_lt_zero groupIdx),
        fun groupIdx j value none => absurd none (Nat.not_lt_zero groupIdx),
        fun index inRange _ => Vector.getElem_replicate inRange⟩ canonical.rebuilt
    rwa [length_range] at folded
  have whole := done.extend upper (fun groupIdx inRange nonempty => by
    by_contra behind
    exact nonempty ((valid.groupOps_eq_nil inRange).mpr (flat groupIdx (Nat.ge_of_not_lt behind) inRange)))
  exact ⟨whole.free, whole.elements, whole.zero⟩

/-! ## Sizes -/

theorem length_blockBytes (batches : List OpBatch) : (blockBytes batches).length =
    basicBlockDataLen batches := by
  have sizes : ((operations batches).map (fun op => op.writeInto.length)).sum =
      ((operations batches).map Operation.encodedSize).sum :=
    congrArg List.sum (map_congr_left (fun op _ => op.length_writeInto))
  have indptrs : ((batches.map OpBatch.indptr).flatMap packedIndptr).length =
      4 * batches.length := by
    simp [length_flatMap, length_packedIndptr, Function.comp_def, mul_comm]
  have paddings : ((batches.map OpBatch.padding).flatMap
      (fun padding => [UInt8.ofNat (packFlags padding.toList)])).length = batches.length := by
    simp [length_flatMap, Function.comp_def]
  rw [blockBytes, basicBlockDataLen, writeVec, length_append, length_append, length_append,
    length_append, length_writeUsize, length_flatMap, sizes, indptrs, paddings,
    writeU32, length_toLe]
  omega

theorem CanonicalBatch.length_ops_le (canonical : CanonicalBatch batch) :
    batch.ops.length ≤ 72 := by
  have bound (index : Nat) (inRange : index ≤ 8) : batch.indptrAt index ≤ 9 * index := by
    induction index with
    | zero => exact canonical.first.le
    | succ index ih =>
      have step := (canonical.steps index inRange).2
      have before := ih (le_of_lt inRange)
      omega
  rw [← canonical.final]
  exact bound 8 (le_refl 8)

theorem length_flatMap_le {α β : Type} {items : List α} {f : α -> List β} {bound : Nat}
    (each : forall item, item ∈ items -> (f item).length ≤ bound) :
    (items.flatMap f).length ≤ bound * items.length := by
  have sum := sum_le_card_nsmul (items.map (fun item => (f item).length)) bound
    (forall_mem_map.mpr each)
  rwa [length_map, smul_eq_mul, mul_comm, ← length_flatMap] at sum

theorem BatchLayout.length_rawOps_le (layout : BatchLayout) :
    (layout.groups.flatMap OpGroup.rawOps).length ≤ 72 := by
  have groups :=
    length_mul_le_flatMap OpGroup.slots layout.groups (fun group _ => Nat.le_add_left 1 _)
  have fits : (layout.groups.flatMap OpGroup.slots).length ≤ 8 := layout.fits
  have ops :=
    length_flatMap_le (fun group (_ : group ∈ layout.groups) => show group.rawOps.length ≤ 9 by
    unfold OpGroup.rawOps
    split
    · rw [length_dropLast]
      exact (Nat.sub_le _ _).trans group.length_le
    · exact group.length_le)
  omega

/-! ## The round trip -/

/-- A batch holds at most 72 operations, and an operation starts at most one batch. -/
theorem batchOps_bounds {ε : Type} {ops : List Operation}
    (built : (batchOps ops : Outcome ε _) = ok batches) :
    batches.length ≤ ops.length + 1 ∧ (operations batches).length ≤ 72 * batches.length ∧
      ops.length ≤ 72 * batches.length := by
  refine ⟨?_, length_flatMap_le (fun batch member => (canonical_of_batchOps built batch member).length_ops_le), ?_⟩
  · rcases bind_eq_ok.mp built with ⟨⟨closed, acc⟩, folded, last⟩
    have none : ([] : List OpBatch).length ≤ 0 := le_refl 0
    have few : closed.length ≤ ops.length := foldlM_invariant
      (fun count (state : List OpBatch × OpBatchAccumulator) => state.1.length ≤ count)
      (fun count op state next _ held ran => by
        unfold batchStep at ran
        split at ran
        · rcases bind_eq_ok.mp ran with ⟨_, _, same⟩
          cases same
          exact Nat.le_succ_of_le held
        · rcases bind_eq_ok.mp ran with ⟨_, _, ran⟩
          rcases bind_eq_ok.mp ran with ⟨_, _, same⟩
          cases same
          rw [length_append]
          exact Nat.succ_le_succ held) none folded
    dsimp only at last
    split at last
    · cases last
      exact Nat.le_succ_of_le few
    · rcases bind_eq_ok.mp last with ⟨_, _, same⟩
      cases same
      rw [length_append]
      exact Nat.succ_le_succ few
  · rcases @batchOps_layouts ε ops with ⟨layouts, same, raw, _⟩
    rw [built] at same
    rw [ok.inj same, length_map, ← raw]
    exact length_flatMap_le (fun layout _ => layout.length_rawOps_le)

/-- Blocks are written in the announced number of bytes.  They come back from
wherever their bytes stand exactly when they have fewer than `2^32` batches.
Other bytes are refused, or give batches whose elements are determined by
their operations and boundaries. -/
theorem basic_block_codec {ops : List Operation}
    (built : (batchOps ops : Outcome Unit _) = ok batches)
    (fits : (operations batches).length < usizeLimit) (nodeData : List UInt8) :
    (∃ bytes, (encodeBasicBlock nodeData batches : Outcome Unit _) =
        ok (nodeData ++ bytes, nodeData.length % 2 ^ 32) ∧
          bytes.length = basicBlockDataLen batches ∧
      forall front back, decodeOperations (front ++ (bytes ++ back)) front.length = ok batches ↔
        batches.length < 2 ^ 32) ∧
    forall bytes opsOffset, decodeOperations bytes opsOffset ≠ panic ∧
      forall decoded, decodeOperations bytes opsOffset = ok decoded ->
        forall batch, batch ∈ decoded -> Determined batch 8 batch.groups := by
  have canonical := canonical_of_batchOps built
  refine ⟨⟨blockBytes batches, ?_, length_blockBytes batches, fun front back => ?_⟩, fun bytes opsOffset =>
    ⟨decodeOperations_ne_panic bytes opsOffset, fun decoded returned batch member =>
      ((decodeOperations_spec returned).1 batch member).determined⟩⟩
  · rw [encodeBasicBlock, basicBlockBytes_eq canonical, ok_bind]
  · exact ⟨fun decoded => (decodeOperations_spec decoded).2,
      fun few => decodeOperations_blockBytes canonical few fits front back⟩

/-- A `Push` and ten additions, in two groups around the immediate, behind three bytes. -/
theorem basic_block_codec_push :
    let ops := Operation.push 7 :: List.replicate 10 .add
    ∃ batches bytes, (batchOps ops : Outcome Unit _) = ok batches ∧
      batches.map (fun batch => (batch.numGroups, batch.indptrAt 1, batch.groupAt 1,
        batch.indptrAt 2)) = [(4, 9, 7, 9)] ∧
      (encodeBasicBlock [] batches : Outcome Unit _) = ok (bytes, 0) ∧
      decodeOperations ([1, 2, 3] ++ (bytes ++ [4])) 3 = ok batches := by
  intro ops
  have returns : ∃ batches, (batchOps ops : Outcome Unit _) = ok batches ∧
      batches.map (fun batch => (batch.numGroups, batch.indptrAt 1, batch.groupAt 1, batch.indptrAt 2)) =
        [(4, 9, 7, 9)] ∧ (operations batches).length < usizeLimit ∧ batches.length < 2 ^ 32 := by
    decide +kernel
  rcases returns with ⟨batches, built, shape, fits, few⟩
  rcases (basic_block_codec built fits []).1 with ⟨bytes, encoded, _, decoded⟩
  exact ⟨batches, bytes, built, shape, encoded, (decoded [1, 2, 3] [4]).mpr few⟩

/-- More than `2^32` batches: the number is written modulo `2^32`. -/
theorem many_batches_not_decoded : ∃ batches bytes,
    (batchOps (List.replicate (2 ^ 39) Operation.add) : Outcome Unit _) = ok batches ∧
      (operations batches).length < usizeLimit ∧ (encodeBasicBlock [] batches : Outcome Unit _) =
        ok (bytes, 0) ∧ decodeOperations bytes 0 ≠ ok batches := by
  rcases @batchOps_layouts Unit (List.replicate (2 ^ 39) Operation.add) with ⟨layouts, built, _⟩
  rcases batchOps_bounds built with ⟨few, short, long⟩
  rw [length_replicate] at few long
  refine ⟨_, blockBytes (layouts.map BatchLayout.toBatch), built,
    by unfold usizeLimit; omega, ?_, fun decoded => ?_⟩
  · rw [encodeBasicBlock, basicBlockBytes_eq (canonical_of_batchOps built), ok_bind]
    rfl
  · have bound := (decodeOperations_spec decoded).2
    omega

end MidenVm.Mast
