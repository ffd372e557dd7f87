import MidenVm.Mast.BatchSpec

namespace MidenVm.Mast

open Foundation Outcome

/-!
# The validation of batches never aborts

The batches of a block read from bytes are arbitrary, so the passes that
validate them must not index out of range whatever they are given.  The
structural pass is safe on any batch; each later pass is safe on what the
structural pass has accepted.
-/

theorem placeImmediates_ne_panic (indptr : Vector Nat 9) (numGroups : Option Nat)
    (ops : List Operation) (start : Nat) :
    placeImmediates indptr batchSize numGroups ops start ≠ panic := by
  induction ops generalizing start with
  | nil => simp [placeImmediates]
  | cons op rest ih =>
    unfold placeImmediates
    split
    · exact ih start
    · apply ensure_bind_ne_panic
      intro (inRange : start < 8)
      apply bind_ne_panic
      · unfold checkSlotCount
        split <;> simp
      · intro _ _
        rw [readAt_of_lt _ (show start < 9 by omega), ok_bind,
          readAt_of_lt _ (show start + 1 < 9 by omega), ok_bind]
        apply ensure_bind_ne_panic
        intro _
        exact bind_ok_ne_panic (ih (start + 1)) _

theorem markSlots_ne_panic (batchIdx : Nat) (groups : Vector Felt 8) {start : Nat}
    {values : List Felt} (slots : Vector Bool 8) (room : start + values.length ≤ 8) :
    markSlots batchIdx groups (placementsFrom start values) slots ≠ panic := by
  induction values generalizing start slots with
  | nil => simp [markSlots]
  | cons value rest ih =>
    rw [List.length_cons] at room
    have inRange : start < 8 := by omega
    rw [placementsFrom_cons, markSlots, readAt_of_lt _ inRange, ok_bind]
    apply ensure_bind_ne_panic
    intro _
    rw [writeAt_of_lt _ _ inRange, ok_bind]
    exact ih _ (by omega)

namespace StructuredBatch

variable {batch : OpBatch} {groupIdx : Nat}

section Valid

variable (valid : StructuredBatch batch) (batchIdx : Nat)
include valid

theorem collectImmediatePlacements_ne_panic (inRange : groupIdx < 8) (numGroups : Option Nat) :
    collectImmediatePlacements batch.ops batch.indptr groupIdx batchSize numGroups ≠ panic := by
  unfold collectImmediatePlacements
  rw [batch.readAt_bounds inRange, valid.slice_eq_groupOps inRange, ok_bind]
  exact placeImmediates_ne_panic _ _ _ _

theorem checkEnding_ne_panic (inRange : groupIdx < batch.numGroups) :
    checkEnding batchIdx batch groupIdx ≠ panic := by
  have inBatch := valid.inBatch inRange
  unfold checkEnding
  rw [groupBounds_of_lt batch inBatch, ok_bind]
  dsimp only
  split
  · simp
  · rw [valid.slice_eq_groupOps inBatch, ok_bind, checkedSub_of_le (by omega), ok_bind]
    split
    · exact forEach_ne_panic (fun _ _ => ensure_ne_panic _ _)
    · exact ensure_ne_panic _ _

theorem checkCommitment_ne_panic (slots : Vector Bool 8)
    (inRange : groupIdx < batch.numGroups) :
    checkCommitment batchIdx batch slots groupIdx ≠ panic := by
  have inBatch := valid.inBatch inRange
  unfold checkCommitment
  rw [groupBounds_of_lt batch inBatch, ok_bind]
  dsimp only
  split
  · simp
  · rw [valid.slice_eq_groupOps inBatch, ok_bind, batch.readAt_groups inBatch, ok_bind]
    apply ensure_bind_ne_panic
    intro _
    apply bind_ne_panic
    · rw [ne_eq, mapErr_eq_panic]
      exact valid.collectImmediatePlacements_ne_panic inBatch _
    · rintro ⟨placements, last⟩ collected
      rcases (collectImmediatePlacements_eq_ok valid inBatch).mp (mapErr_eq_ok.mp collected) with
        ⟨free, same⟩
      cases same
      exact markSlots_ne_panic batchIdx _ slots (slots_room inBatch free)

theorem checkCommitments_ne_panic : checkCommitments batchIdx batch ≠ panic := by
  have inBatch : forall {index groupIdx : Nat},
      (List.range batch.numGroups)[index]? = some groupIdx -> groupIdx < batch.numGroups :=
    fun found => List.mem_range.mp (List.mem_of_getElem? found)
  apply bind_ne_panic
  · apply foldlM_ne_panic (fun _ _ => True)
    · exact fun _ _ _ _ _ _ _ => trivial
    · exact fun _ _ slots found _ => valid.checkCommitment_ne_panic batchIdx slots (inBatch found)
    · trivial
  · intro slots _
    apply forEach_ne_panic
    intro groupIdx member
    have inRange := valid.inBatch (List.mem_range.mp member)
    unfold checkEmptyGroup
    rw [groupBounds_of_lt batch inRange, ok_bind]
    dsimp only
    split
    · rw [readAt_of_lt _ inRange, ok_bind, readAt_of_lt _ inRange, ok_bind]
      exact ensure_ne_panic _ _
    · simp

end Valid

end StructuredBatch

theorem checkStructure_ne_panic (batchIdx : Nat) (batch : OpBatch) :
    checkStructure batchIdx batch ≠ panic := by
  apply ensure_bind_ne_panic
  intro (count_le : batch.numGroups ≤ 8)
  apply bind_ne_panic
  · apply forEach_ne_panic
    intro index member
    have inRange := List.mem_range.mp member
    unfold checkMonotone
    rw [batch.readAt_bounds inRange]
    exact ensure_ne_panic _ _
  · intro _ monotone
    rw [readAt_of_lt _ (show 8 < 9 by decide), ok_bind]
    apply ensure_bind_ne_panic
    intro _
    apply forEach_ne_panic
    intro groupIdx member
    have inRange := lt_of_lt_of_le (List.mem_range.mp member) count_le
    have ordered := (checkMonotone_eq_ok inRange).mp
      (forEach_eq_ok.mp monotone groupIdx (List.mem_range.mpr inRange))
    unfold checkGroupSize
    rw [groupBounds_of_lt batch inRange, ok_bind]
    dsimp only
    rw [checkedSub_of_le ordered, ok_bind]
    exact ensure_ne_panic _ _

theorem OpBatch.validatePaddingSemantics_ne_panic (batch : OpBatch) :
    batch.validatePaddingSemantics ≠ panic := by
  apply ensure_bind_ne_panic
  intro _
  apply forEach_ne_panic
  intro groupIdx _
  apply bind_ne_panic (okOr_ne_panic _ _)
  intro isPadded _
  split
  · exact bind_ne_panic (okOr_ne_panic _ _) (fun _ _ => bind_ne_panic (okOr_ne_panic _ _)
      (fun _ _ => bind_ne_panic (ensure_ne_panic _ _) (fun _ _ => bind_ne_panic
        (ensure_ne_panic _ _) (fun _ _ => bind_ne_panic (okOr_ne_panic _ _)
          (fun _ _ => ensure_ne_panic _ _)))))
  · simp

/-- The validation returns a verdict on any batches: the structural pass comes
before the passes that index by what it has checked. -/
theorem validateBatchInvariants_ne_panic (batches : List OpBatch) :
    validateBatchInvariants batches ≠ panic := by
  apply bind_ne_panic
  · apply forEach_ne_panic
    rintro ⟨batch, batchIdx⟩ _
    dsimp only
    split <;> exact ensure_ne_panic _ _
  intro _ _
  apply bind_ne_panic
  · exact forEach_ne_panic (fun item _ => checkStructure_ne_panic item.2 item.1)
  intro _ structured
  have each : forall item, item ∈ batches.zipIdx -> StructuredBatch item.1 :=
    fun item member => checkStructure_eq_ok.mp (forEach_eq_ok.mp structured item member)
  apply bind_ne_panic
  · apply forEach_ne_panic
    intro item member
    exact forEach_ne_panic (fun groupIdx inside =>
      (each item member).checkEnding_ne_panic item.2 (List.mem_range.mp inside))
  intro _ _
  apply bind_ne_panic
  · exact forEach_ne_panic (fun item member => (each item member).checkCommitments_ne_panic item.2)
  intro _ _
  apply forEach_ne_panic
  intro item _
  rw [ne_eq, mapErr_eq_panic]
  exact item.1.validatePaddingSemantics_ne_panic

end MidenVm.Mast
