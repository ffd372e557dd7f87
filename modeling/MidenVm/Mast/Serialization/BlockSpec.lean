import MidenVm.Mast.BatchSafety
import MidenVm.Mast.BlockCommitment
import MidenVm.Mast.Serialization.BasicBlocks

namespace MidenVm.Mast

open Foundation Outcome Parser Serde Nat OpBatch Operation UInt8 Reads Segments
open List hiding Vector

/-!
# Decoding of basic blocks

What a block on the wire stands for.  A batch is canonical when its groups
are the ones the decoder computes from its operations and `indptr`.  The
decoder returns canonical batches whatever the bytes are, batching produces
canonical batches, and the encoding of canonical batches decodes to them.
-/

/-! ## Rebuilding the groups of one batch -/

variable {ε : Type} {groupIdx index : Nat} {packed : List UInt8} {indptr : Vector Nat 9} {data : BlockData}
  {batches : List OpBatch}

/-- A search from above finds nothing below an index with the property. -/
theorem find?_reverse_range {p : Nat -> Bool} {count : Nat} (inside : index < count)
    (holds : p index = true) :
    ∃ last, (List.range count).reverse.find? p = some last ∧ index ≤ last := by
  induction count with
  | zero => cases inside
  | succ count ih =>
    rw [range_succ, reverse_append, reverse_singleton, singleton_append, find?_cons]
    cases top : p count with
    | true => exact ⟨count, rfl, le_of_lt_succ inside⟩
    | false =>
      rcases Nat.lt_succ_iff_lt_or_eq.mp inside with lower | rfl
      · exact ih lower
      · rw [top] at holds
        cases holds

section Rebuild

variable {batch : OpBatch}

section Monotone

variable (monotone : forall index, index < 8 -> batch.indptrAt index ≤ batch.indptrAt (index + 1))
include monotone

/-- The groups above the highest one are empty. -/
theorem highestOpGroup_spec :
    highestOpGroup batch.indptr ≤ 8 ∧
      (forall index, highestOpGroup batch.indptr ≤ index -> index < 8 ->
        batch.indptrAt index = batch.indptrAt (index + 1)) := by
  unfold highestOpGroup
  refine ⟨?_, fun index above inRange => le_antisymm (monotone index inRange) (not_lt.mp (fun rises => ?_))⟩
  · cases found : (List.range 8).reverse.find? _ with
    | none => decide
    | some last => exact mem_range.mp (mem_reverse.mp (mem_of_find?_eq_some found))
  · rcases @find?_reverse_range _ (fun i => decide (batch.indptr[i]?.getD 0 < batch.indptr[i + 1]?.getD 0)) _
      inRange (decide_eq_true rises) with ⟨last, found, below⟩
    rw [found] at above
    exact absurd above (not_le.mpr (lt_succ_of_le below))

/-- So the highest group ends where the last one does. -/
theorem indptrAt_highestOpGroup : batch.indptrAt (highestOpGroup batch.indptr) =
    batch.indptrAt 8 := by
  rcases highestOpGroup_spec monotone with ⟨upper, flat⟩
  have reach (index : Nat) (above : highestOpGroup batch.indptr ≤ index) : index ≤ 8 ->
      batch.indptrAt (highestOpGroup batch.indptr) = batch.indptrAt index := by
    induction index, above using Nat.le_induction with
    | base => exact fun _ => rfl
    | succ index above ih => exact fun inRange =>
      (ih (le_of_lt inRange)).trans (flat index above inRange)
  exact reach 8 upper (le_refl 8)

end Monotone

/-- Values written over consecutive groups. -/
def overlay (groups : Vector Felt 8) (start : Nat) (values : List Felt) : Vector Felt 8 :=
  Vector.ofFn (fun index =>
    if start ≤ index.val then values.getD (index.val - start) (groups.get index) else groups.get index)

section Groups

variable (groups : Vector Felt 8)

theorem overlay_nil (start : Nat) : overlay groups start [] = groups := by
  ext index inRange
  simp [overlay, Vector.get_eq_getElem]

theorem overlay_cons {start : Nat} (value : Felt) (rest : List Felt) (inRange : start < 8) :
    overlay (groups.set start value) (start + 1) rest = overlay groups start (value :: rest) := by
  ext index inBatch
  simp only [overlay, Vector.getElem_ofFn, Vector.get_eq_getElem, Vector.getElem_set]
  rcases lt_trichotomy start index with above | rfl | below
  · rw [if_pos (show start + 1 ≤ index by omega), if_pos (show start ≤ index by omega),
      if_neg (show ¬ start = index by omega), show index - start = index - (start + 1) + 1 by omega,
      getD_cons_succ]
  · simp
  · rw [if_neg (show ¬ start + 1 ≤ index by omega), if_neg (show ¬ start ≤ index by omega),
      if_neg (show ¬ start = index by omega)]

theorem writePlacements_eq (start : Nat) (values : List Felt) (fits : start + values.length ≤ 8) :
    (writePlacements groups (placementsFrom start values) : Outcome ε _) =
      ok (overlay groups start values) := by
  induction values generalizing groups start with
  | nil => rw [placementsFrom_nil, writePlacements, overlay_nil]
  | cons value rest ih =>
    rw [length_cons] at fits
    rw [placementsFrom_cons, writePlacements, writeAt_of_lt _ _ (by omega), ok_bind,
      ih _ _ (by omega), overlay_cons groups value rest (by omega)]

/-- The groups after the operations of one group are packed and its
immediates are placed behind it. -/
def withGroup (groups : Vector Felt 8) (groupIdx : Nat) (groupOps : List Operation) : Vector Felt 8 :=
  overlay groups groupIdx (Felt.newUnchecked (packFrom 0 0 groupOps) :: immediates groupOps)

section Valid

variable (valid : StructuredBatch batch) (inRange : groupIdx < 8)
include valid inRange

/-- One step of the rebuilding loop: an empty group is skipped. -/
theorem rebuildGroup_eq (state : Vector Felt 8 × Nat) :
    rebuildGroup batch.ops batch.indptr state groupIdx =
      if batch.groupOps groupIdx = [] then ok state
      else mapErr DeserializationError.invalidValue
          (collectImmediatePlacements batch.ops batch.indptr groupIdx batchSize none) >>= fun placed =>
        writePlacements (state.1.set groupIdx (Felt.newUnchecked (packFrom 0 0 (batch.groupOps groupIdx))))
          placed.1 >>= fun groups => ok (groups, placed.2) := by
  have ordered := valid.monotone groupIdx inRange
  rw [rebuildGroup, batch.readAt_bounds inRange]
  by_cases empty : batch.groupOps groupIdx = []
  · have flat := (valid.groupOps_eq_nil inRange).mp empty
    rw [if_neg (by omega), if_pos empty]
  · have moved := mt (valid.groupOps_eq_nil inRange).mpr empty
    rw [if_pos (by omega), if_neg empty, valid.slice_eq_groupOps inRange, ok_bind,
      writeAt_of_lt _ _ inRange, ok_bind]

/-- Any other one needs free slots for its immediates. -/
theorem rebuildGroup_eq_ok {state next : Vector Felt 8 × Nat} :
    rebuildGroup batch.ops batch.indptr state groupIdx = ok next ↔
      (batch.groupOps groupIdx = [] ∧ next = state) ∨
      (batch.groupOps groupIdx ≠ [] ∧
        (forall j, j < (immediates (batch.groupOps groupIdx)).length ->
          FreeSlot batch none (groupIdx + 1 + j)) ∧
        next = (withGroup state.1 groupIdx (batch.groupOps groupIdx),
          groupIdx + 1 + (immediates (batch.groupOps groupIdx)).length)) := by
  rw [rebuildGroup_eq valid inRange]
  by_cases empty : batch.groupOps groupIdx = []
  · simp [empty, eq_comm]
  · rw [if_neg empty, bind_eq_ok]
    constructor
    · rintro ⟨placed, collected, written⟩
      rcases (collectImmediatePlacements_eq_ok valid inRange).mp (mapErr_eq_ok.mp collected) with
        ⟨free, rfl⟩
      rw [writePlacements_eq _ _ _ (slots_room inRange free), ok_bind,
        overlay_cons _ _ _ inRange] at written
      exact .inr ⟨empty, free, (Outcome.ok.inj written).symm⟩
    · rintro (⟨impossible, _⟩ | ⟨_, free, rfl⟩)
      · exact absurd impossible empty
      · refine ⟨_, mapErr_eq_ok.mpr ((collectImmediatePlacements_eq_ok valid inRange).mpr
          ⟨free, rfl⟩), ?_⟩
        rw [writePlacements_eq _ _ _ (slots_room inRange free), ok_bind, overlay_cons _ _ _ inRange]
        rfl

theorem rebuildGroup_ne_panic
    (state : Vector Felt 8 × Nat) : rebuildGroup batch.ops batch.indptr state groupIdx ≠ panic := by
  rw [rebuildGroup_eq valid inRange]
  split
  · simp
  · apply bind_ne_panic
    · rw [ne_eq, mapErr_eq_panic]
      exact valid.collectImmediatePlacements_ne_panic inRange none
    · intro placed collected
      rcases (collectImmediatePlacements_eq_ok valid inRange).mp (mapErr_eq_ok.mp collected) with
        ⟨free, rfl⟩
      rw [writePlacements_eq _ _ _ (slots_room inRange free), ok_bind]
      simp

end Valid

theorem rebuildGroups_ne_panic (valid : StructuredBatch batch) :
    rebuildGroups batch.ops batch.indptr ≠ panic := by
  have upper := (highestOpGroup_spec valid.monotone).1
  apply foldlM_ne_panic (fun _ _ => True) (fun _ _ _ _ _ _ _ => trivial) _ trivial
  intro index item state found _
  rcases getElem?_range_eq_some.mp found with ⟨inRange, rfl⟩
  exact rebuildGroup_ne_panic valid (by omega) state

theorem getElem_overlay (start : Nat) (values : List Felt) {index : Nat} (inRange : index < 8) :
    (overlay groups start values)[index] =
      if start ≤ index then values.getD (index - start) groups[index] else groups[index] := by
  simp [overlay, Vector.get_eq_getElem]

end Groups

end Rebuild

/-! ## Layouts rebuild to themselves -/

section Layouts

variable {layout : BatchLayout}

/-- At the boundary between two groups stands the operation slot of the next
one, with its immediates behind it. -/
theorem BatchLayout.slots_at_boundary {front rest : List OpGroup} {group : OpGroup}
    (shape : layout.groups = front ++ group :: rest) :
    layout.slots[(layoutSlots front).length]? = some group.opSlot ∧
      forall j value, (immediates group.ops)[j]? = some value ->
        layout.slots[(layoutSlots front).length + 1 + j]? = some (Slot.immediate value) := by
  have split : layout.slots = layoutSlots front ++
      (group.opSlot :: ((immediates group.ops).map Slot.immediate ++ layoutSlots rest)) := by
    rw [BatchLayout.slots, shape, layoutSlots_append, layoutSlots_cons]
    rfl
  refine ⟨by simp [split], fun j value found => ?_⟩
  have inside : j < ((immediates group.ops).map Slot.immediate).length := by
    rw [length_map]
    exact (List.getElem?_eq_some_iff.mp found).1
  rw [split, add_assoc, getElem?_append_right (by omega), Nat.add_sub_cancel_left,
    add_comm 1, getElem?_cons_succ, getElem?_append_left inside, getElem?_map,
    found]
  rfl

/-- Before the group at `count`, some of the groups are rebuilt: those whose
slots end at `state.2`. -/
structure PartlyRebuilt (layout : BatchLayout) (front back : List OpGroup) (count : Nat)
    (state : Vector Felt 8 × Nat) : Prop where
  shape : layout.groups = front ++ back
  reached : state.2 = (layoutSlots front).length
  values : forall index (inRange : index < 8), state.1[index] =
    if index < state.2 then layout.toBatch.groupAt index else 0
  ahead : count ≤ state.2 ∨ back = []
  behind : forall index, count ≤ index -> index < state.2 -> layout.toBatch.groupOps index = []

theorem PartlyRebuilt.step {front back : List OpGroup} {count : Nat}
    {state : Vector Felt 8 × Nat} (partly : PartlyRebuilt layout front back count state)
    (inRange : count < 8) :
    ∃ next, rebuildGroup layout.toBatch.ops layout.toBatch.indptr state count = ok next ∧
      ∃ front back, PartlyRebuilt layout front back (count + 1) next := by
  have valid : StructuredBatch layout.toBatch := BatchLayout.toBatch_structured
  have skip : (count + 1 ≤ state.2 ∨ back = []) ->
      PartlyRebuilt layout front back (count + 1) state :=
    fun ahead => ⟨partly.shape, partly.reached, partly.values, ahead,
      fun index above => partly.behind index (by omega)⟩
  rcases lt_or_ge count state.2 with inside | past
  · have empty := partly.behind count (le_refl count) inside
    exact ⟨state, (rebuildGroup_eq_ok valid inRange).mpr (.inl ⟨empty, rfl⟩), front, back,
      skip (.inl inside)⟩
  cases back with
  | nil =>
    refine ⟨state, (rebuildGroup_eq_ok valid inRange).mpr (.inl ⟨?_, rfl⟩), front, [],
      skip (.inr rfl)⟩
    have slots : layout.slots = layoutSlots front := by
      rw [BatchLayout.slots, partly.shape, append_nil]
    rw [layout.toBatch_groupOps inRange, BatchLayout.parts, getD_eq_getElem?_getD,
      getElem?_eq_none (by rw [length_map, slots, ← partly.reached]; exact past)]
    rfl
  | cons group rest =>
    have boundary : count = (layoutSlots front).length := by
      rcases partly.ahead with ahead | impossible
      · rw [← partly.reached]
        omega
      · cases impossible
    rcases BatchLayout.slots_at_boundary partly.shape with ⟨here, others⟩
    rw [← boundary] at here others
    rcases BatchLayout.toBatch_at here with ⟨ops, _, value⟩
    have free : forall j, j < (immediates group.ops).length ->
        FreeSlot layout.toBatch none (count + 1 + j) := by
      intro j inImmediates
      have slot := others j _ (getElem?_eq_getElem inImmediates)
      have inSlots := lt_of_lt_of_le (List.getElem?_eq_some_iff.mp slot).1 layout.fits
      exact ⟨inSlots, fun _ absent => absurd absent (by simp),
        (valid.groupOps_eq_nil inSlots).mp (BatchLayout.toBatch_at slot).1⟩
    have groupOps : layout.toBatch.groupOps count = group.ops := ops
    refine ⟨_, (rebuildGroup_eq_ok valid inRange).mpr (.inr ⟨groupOps ▸ group.nonempty, groupOps ▸ free, rfl⟩),
      front ++ [group], rest, ?_⟩
    rw [groupOps]
    have size : count + 1 + (immediates group.ops).length =
        (layoutSlots (front ++ [group])).length := by
      rw [layoutSlots_append, length_append, ← boundary, add_assoc]
      simp [layoutSlots, OpGroup.slots, add_comm]
    refine ⟨by rw [partly.shape, append_assoc]; rfl, size, fun index inBatch => ?_,
      .inl (by dsimp only; omega), fun index above below => ?_⟩
    · dsimp only
      rw [withGroup, getElem_overlay _ _ _ inBatch, partly.values index inBatch,
        show state.2 = count by rw [partly.reached, boundary]]
      rcases lt_trichotomy index count with below | rfl | above
      · rw [if_neg (by omega), if_pos below, if_pos (by omega)]
      · rw [if_pos (le_refl index), Nat.sub_self, getD_cons_zero, if_pos (by omega)]
        exact value.symm
      · rw [if_pos (by omega), show index - count = index - (count + 1) + 1 by omega,
          getD_cons_succ, if_neg (by omega), getD_eq_getElem?_getD]
        cases found : (immediates group.ops)[index - (count + 1)]? with
        | none =>
          have outside := List.getElem?_eq_none_iff.mp found
          rw [if_neg (by omega), Option.getD_none]
        | some imm =>
          have inImmediates := (List.getElem?_eq_some_iff.mp found).1
          have slot := others _ imm found
          rw [Nat.add_sub_cancel' above] at slot
          rw [if_pos (by omega), Option.getD_some]
          exact (BatchLayout.toBatch_at slot).2.2.symm
    · dsimp only at below
      have slot := free (index - (count + 1)) (by omega)
      rw [Nat.add_sub_cancel' above] at slot
      exact (valid.groupOps_eq_nil slot.1).mpr slot.2.2

/-- Rebuilding the groups of a layout's batch gives the groups it has. -/
theorem BatchLayout.rebuildGroups_eq (layout : BatchLayout) :
    rebuildGroups layout.toBatch.ops layout.toBatch.indptr =
      ok (layout.toBatch.groups, layout.toBatch.numGroups) := by
  have valid : StructuredBatch layout.toBatch := BatchLayout.toBatch_structured
  rcases highestOpGroup_spec valid.monotone with ⟨upper, flat⟩
  have start : PartlyRebuilt layout [] layout.groups 0 (Vector.replicate 8 0, 0) :=
    ⟨rfl, rfl, fun index _ => by simp, .inl (Nat.le_refl 0),
      fun index _ none => absurd none (Nat.not_lt_zero index)⟩
  rcases @foldlM_returns _ _ _ (rebuildGroup layout.toBatch.ops layout.toBatch.indptr)
    (List.range (highestOpGroup layout.toBatch.indptr))
    (fun count state => ∃ front back, PartlyRebuilt layout front back count state)
    (by
      rintro count item state found ⟨front, back, partly⟩
      rcases getElem?_range_eq_some.mp found with ⟨inLoop, rfl⟩
      exact partly.step (by omega)) _ ⟨[], layout.groups, start⟩ with
    ⟨⟨groups, numGroups⟩, ran, front, back, partly⟩
  rw [rebuildGroups, ran]
  rw [length_range] at partly
  -- another group would put operations behind the highest group
  have complete : back = [] := by
    cases back with
    | nil => rfl
    | cons group rest =>
      rcases BatchLayout.slots_at_boundary partly.shape with ⟨here, _⟩
      have inSlots := Nat.lt_of_lt_of_le (List.getElem?_eq_some_iff.mp here).1 layout.fits
      rcases partly.ahead with ahead | impossible
      · rw [partly.reached] at ahead
        have empty := (valid.groupOps_eq_nil inSlots).mpr (flat _ ahead inSlots)
        rw [(BatchLayout.toBatch_at here).1] at empty
        exact absurd empty group.nonempty
      · exact impossible
  have slots : layout.slots = layoutSlots front := by
    rw [BatchLayout.slots, partly.shape, complete, append_nil]
  have count : numGroups = layout.toBatch.numGroups := by
    have reached : numGroups = (layoutSlots front).length := partly.reached
    rw [reached, ← slots]
    rfl
  have values : groups = layout.toBatch.groups := by
    ext index inRange
    have here : groups[index] = if index < numGroups then layout.toBatch.groupAt index else 0 :=
      partly.values index inRange
    rw [here, count, OpBatch.groupAt, Vector.getElem?_eq_getElem inRange, Option.getD_some]
    split
    · rfl
    · rename_i outside
      have missing := getElem?_eq_none (ge_of_not_lt outside : layout.slots.length ≤ index)
      simp [BatchLayout.toBatch, missing]
  rw [values, count]

end Layouts

/-! ## Canonical batches -/

/-- A batch the decoder computes from its operations, `indptr` and padding. -/
structure CanonicalBatch (batch : OpBatch) : Prop where
  first : batch.indptrAt 0 = 0
  steps : forall index, index < 8 -> batch.indptrAt index ≤ batch.indptrAt (index + 1) ∧
    batch.indptrAt (index + 1) ≤ batch.indptrAt index + 9
  final : batch.indptrAt 8 = batch.ops.length
  rebuilt : rebuildGroups batch.ops batch.indptr = ok (batch.groups, batch.numGroups)
  padding : batch.validatePaddingSemantics = ok ()

theorem BatchLayout.toBatch_canonical (layout : BatchLayout) : CanonicalBatch layout.toBatch where
  first := by rw [layout.toBatch_indptrAt (by decide), offset_zero]
  steps := fun index inRange => by
    refine ⟨toBatch_structured.monotone index inRange, ?_⟩
    rcases lt_or_ge index layout.toBatch.numGroups with inside | outside
    · have size := toBatch_structured.size_le index inside
      omega
    · rw [layout.toBatch_indptrAt (by omega), layout.toBatch_indptrAt (by omega),
        offset_of_length_le (by rw [parts, length_map]; exact le_succ_of_le outside),
        offset_of_length_le (by rw [parts, length_map]; exact outside)]
      exact Nat.le_add_right _ 9
  final := toBatch_structured.final
  rebuilt := layout.rebuildGroups_eq
  padding := (validatePaddingSemantics_eq_ok toBatch_structured).mpr toBatch_valid.padded

theorem canonical_of_batchOps {ops : List Operation}
    (built : (batchOps ops : Outcome ε _) = ok batches) :
    forall batch, batch ∈ batches -> CanonicalBatch batch := by
  intro batch member
  rcases @batchOps_layouts ε ops with ⟨layouts, same, _⟩
  rw [built] at same
  rw [ok.inj same] at member
  rcases mem_map.mp member with ⟨layout, _, rfl⟩
  exact layout.toBatch_canonical

/-! ## Decoding -/

/-- A batch of which only the operations and `indptr` are known. -/
def bareBatch (ops : List Operation) (indptr : Vector Nat 9) : OpBatch where
  ops
  indptr
  padding := Vector.replicate 8 false
  groups := Vector.replicate 8 0
  numGroups := 0

theorem CanonicalBatch.structured {batch : OpBatch} (canonical : CanonicalBatch batch) :
    StructuredBatch (bareBatch batch.ops batch.indptr) :=
  ⟨Nat.zero_le 8, fun index inRange => (canonical.steps index inRange).1, canonical.final,
    fun groupIdx none => absurd none (Nat.not_lt_zero groupIdx)⟩

theorem length_nibbles (packed : List UInt8) : (nibbles packed).length = 2 * packed.length := by
  simp [nibbles, length_flatMap, mul_comm]

theorem unpackIndptrDeltas_eq_ok :
    unpackIndptrDeltas packed = ok indptr ↔
      (forall delta, delta ∈ nibbles packed -> delta ≤ 9) ∧
        indptr = Vector.ofFn (fun i => ((nibbles packed).take i.val).sum) := by
  rw [unpackIndptrDeltas, bind_unit_eq_ok, forEach_zipIdx_eq_ok, ok.injEq, eq_comm (a := indptr)]
  apply and_congr_left'
  constructor
  · intro every delta member
    rcases mem_iff_getElem?.mp member with ⟨index, found⟩
    exact ensure_eq_ok.mp (every index delta found)
  · intro every index delta found
    exact ensure_of (every delta (mem_of_getElem? found)) _

/-- What unpacking promises about `indptr`. -/
structure WireIndptr (indptr : Vector Nat 9) : Prop where
  first : (bareBatch [] indptr).indptrAt 0 = 0
  steps : forall index, index < 8 ->
    (bareBatch [] indptr).indptrAt index ≤ (bareBatch [] indptr).indptrAt (index + 1) ∧
      (bareBatch [] indptr).indptrAt (index + 1) ≤ (bareBatch [] indptr).indptrAt index + 9

theorem indptrAt_sums (deltas : List Nat) (inRange : index < 9) :
    (bareBatch [] (Vector.ofFn (fun i => (deltas.take i.val).sum))).indptrAt index =
      (deltas.take index).sum := by
  simp [bareBatch, indptrAt, inRange]

theorem wireIndptr_of_unpack (width : packed.length = 4)
    (unpacked : unpackIndptrDeltas packed = ok indptr) : WireIndptr indptr := by
  rcases unpackIndptrDeltas_eq_ok.mp unpacked with ⟨small, rfl⟩
  refine ⟨by rw [indptrAt_sums _ (by decide)]; rfl, fun index inRange => ?_⟩
  have inDeltas : index < (nibbles packed).length := by
    rw [length_nibbles]
    omega
  have delta := small _ (getElem_mem inDeltas)
  rw [indptrAt_sums _ (by omega), indptrAt_sums _ (by omega), take_add_one,
    getElem?_eq_getElem inDeltas, sum_append_nat]
  simp only [Option.toList_some, sum_singleton]
  omega

/-- The operations a batch takes from the operations of its block. -/
theorem WireIndptr.structured (wire : WireIndptr indptr) {ops : List Operation}
    (covers : ops.length = (bareBatch [] indptr).indptrAt 8) :
    StructuredBatch (bareBatch ops indptr) :=
  ⟨Nat.zero_le 8, fun index inRange => (wire.steps index inRange).1, covers.symm,
    fun groupIdx none => absurd none (Nat.not_lt_zero groupIdx)⟩

theorem WireIndptr.readAt_highest (wire : WireIndptr indptr) :
    (readAt indptr (highestOpGroup indptr) : Outcome ε Nat) =
      ok ((bareBatch [] indptr).indptrAt 8) := by
  have monotone := fun index inRange => (wire.steps index inRange).1
  have inRange : highestOpGroup (bareBatch [] indptr).indptr < 9 :=
    lt_succ_of_le (highestOpGroup_spec monotone).1
  rw [← indptrAt_highestOpGroup monotone]
  exact (bareBatch [] indptr).readAt_indptr inRange

/-- One batch of a block: the next operations, and the groups they rebuild to. -/
theorem rebuildBatch_eq_ok {operations : List Operation} {done : List OpBatch}
    {offset batchIdx : Nat}
    {padding : Vector Bool 8} {next : List OpBatch × Nat} (wire : WireIndptr indptr) :
    rebuildBatch operations (done, offset) ((indptr, padding), batchIdx) = ok next ↔
      ∃ batch, CanonicalBatch batch ∧ batch.indptr = indptr ∧ batch.padding = padding ∧
        offset + batch.ops.length ≤ operations.length ∧
        batch.ops = (operations.take (offset + batch.ops.length)).drop offset ∧
        next = (done ++ [batch], offset + batch.ops.length) := by
  unfold rebuildBatch
  dsimp only
  rw [wire.readAt_highest, ok_bind, bind_unit_eq_ok, ensure_eq_ok]
  constructor
  · rintro ⟨within, continued⟩
    rw [slice_of_le _ (Nat.le_add_right _ _) within, ok_bind] at continued
    rcases bind_eq_ok.mp continued with ⟨⟨groups, numGroups⟩, rebuilt, continued⟩
    rw [bind_unit_eq_ok, mapErr_eq_ok] at continued
    have size : ((operations.take (offset + (bareBatch [] indptr).indptrAt 8)).drop offset).length =
        (bareBatch [] indptr).indptrAt 8 := by
      rw [length_drop, length_take, Nat.min_eq_left within]
      omega
    refine ⟨⟨_, indptr, padding, groups, numGroups⟩,
      ⟨wire.first, wire.steps, size.symm, rebuilt, continued.1⟩, rfl, rfl, ?_, ?_, ?_⟩
    · dsimp only
      rw [size]
      exact within
    · dsimp only
      rw [size]
    · dsimp only
      rw [size]
      exact (Outcome.ok.inj continued.2).symm
  · rintro ⟨batch, canonical, rfl, rfl, within, ops, rfl⟩
    have size : (bareBatch [] batch.indptr).indptrAt 8 = batch.ops.length := canonical.final
    rw [size]
    refine ⟨within, ?_⟩
    rw [slice_of_le _ (Nat.le_add_right _ _) within, ok_bind, ← ops, canonical.rebuilt, ok_bind]
    dsimp only
    rw [canonical.padding, mapErr_ok, ok_bind]

theorem rebuildBatch_ne_panic {operations : List Operation} (state : List OpBatch × Nat)
    (padding : Vector Bool 8) (batchIdx : Nat) (wire : WireIndptr indptr) :
    rebuildBatch operations state ((indptr, padding), batchIdx) ≠ panic := by
  unfold rebuildBatch
  dsimp only
  rw [wire.readAt_highest, ok_bind]
  apply ensure_bind_ne_panic
  intro within
  rw [slice_of_le _ (Nat.le_add_right _ _) within, ok_bind]
  have structured : StructuredBatch (bareBatch ((operations.take
      (state.2 + (bareBatch [] indptr).indptrAt 8)).drop state.2) indptr) := wire.structured (by
    rw [length_drop, length_take, Nat.min_eq_left within]
    omega)
  apply bind_ne_panic (rebuildGroups_ne_panic structured)
  rintro ⟨groups, numGroups⟩ _
  refine bind_ok_ne_panic ?_ _
  rw [ne_eq, mapErr_eq_panic]
  exact validatePaddingSemantics_ne_panic _

theorem readIndptr_wellBehaved : WellBehaved readIndptr := by
  refine (readSlice_wellBehaved 4).bind (fun packed => .lift ?_)
  exact bind_ok_ne_panic (forEach_ne_panic (fun _ _ => ensure_ne_panic _ _)) _

theorem readPadding_wellBehaved : WellBehaved readPadding :=
  readU8_wellBehaved.bind (fun _ => .pure _)

theorem readBlockData_wellBehaved : WellBehaved readBlockData :=
  (readVec_wellBehaved readFrom_wellBehaved _).bind (fun _ =>
    readU32_wellBehaved.bind (fun _ => (WellBehaved.checkAlloc _ _ _).bind (fun _ =>
      (readIndptr_wellBehaved.many _).bind (fun _ => (readPadding_wellBehaved.many _).bind
        (fun _ => .pure _)))))

theorem wireIndptr_of_readIndptr (returned : Returns readIndptr indptr) : WireIndptr indptr := by
  rcases returned with ⟨source, after, ran⟩
  rcases seq_eq_ok.mp ran with ⟨packed, _, taken, unpacked⟩
  rcases take_eq_ok.mp taken with ⟨_, within, same⟩
  cases same
  exact wireIndptr_of_unpack (length_take_of_le within) (lift_eq_ok.mp unpacked).1

/-- The batches of a block are counted in 32 bits, and have `indptr`s of the format. -/
theorem readBlockData_indptrs {source after : ByteReader}
    (returned : readBlockData source = ok (data, after)) :
    (forall indptr, indptr ∈ data.indptrs -> WireIndptr indptr) ∧ data.indptrs.length < 2 ^ 32 := by
  rcases seq_eq_ok.mp returned with ⟨_, _, _, continued⟩
  rcases seq_eq_ok.mp continued with ⟨numBatches, _, counted, continued⟩
  rcases seq_eq_ok.mp continued with ⟨_, _, _, continued⟩
  rcases seq_eq_ok.mp continued with ⟨indptrs, _, indptrsRead, continued⟩
  rcases seq_eq_ok.mp continued with ⟨_, _, _, done⟩
  cases done
  exact ⟨fun indptr member => wireIndptr_of_readIndptr (returns_of_many indptrsRead indptr member),
    (length_of_many indptrsRead).trans_lt (readU32_lt counted)⟩

/-- The entries the rebuilding loop goes through have `indptr`s of the format. -/
theorem wireIndptr_of_entry {entry : (Vector Nat 9 × Vector Bool 8) × Nat}
    (wire : forall indptr, indptr ∈ data.indptrs -> WireIndptr indptr)
    (found : (data.indptrs.zip data.paddings).zipIdx[index]? = some entry) :
    WireIndptr entry.1.1 := by
  have paired := mem_of_getElem? (getElem?_zipIdx_eq_some.mp found).1
  exact wire _ (of_mem_zip paired).1

theorem rebuildBatches_ne_panic (wire : forall indptr, indptr ∈ data.indptrs -> WireIndptr indptr) :
    rebuildBatches data ≠ panic := by
  apply bind_ne_panic
  · apply foldlM_ne_panic (fun _ _ => True) (fun _ _ _ _ _ _ _ => trivial) _ trivial
    rintro index ⟨⟨indptr, padding⟩, batchIdx⟩ state found _
    exact rebuildBatch_ne_panic state padding batchIdx (wireIndptr_of_entry wire found)
  · rintro ⟨opBatches, globalOpOffset⟩ _
    exact bind_ok_ne_panic (ensure_ne_panic _ _) _

/-- Whatever the bytes and the offset are, decoding does not abort. -/
theorem decodeOperations_ne_panic (nodeData : List UInt8) (opsOffset : Nat) :
    decodeOperations nodeData opsOffset ≠ panic := by
  apply ensure_bind_ne_panic
  intro _
  apply bind_ne_panic (readBlockData_wellBehaved.neverPanics _)
  rintro ⟨data, after⟩ returned
  exact rebuildBatches_ne_panic (readBlockData_indptrs returned).1

/-- Every batch the decoder returns is canonical, and there are fewer than `2^32`. -/
theorem decodeOperations_spec {nodeData : List UInt8} {opsOffset : Nat}
    (decoded : decodeOperations nodeData opsOffset = ok batches) :
    (forall batch, batch ∈ batches -> CanonicalBatch batch) ∧ batches.length < 2 ^ 32 := by
  rcases bind_unit_eq_ok.mp decoded with ⟨_, decoded⟩
  rcases bind_eq_ok.mp decoded with ⟨⟨data, after⟩, returned, rebuilt⟩
  rcases readBlockData_indptrs returned with ⟨wire, few⟩
  rcases bind_eq_ok.mp rebuilt with ⟨⟨opBatches, globalOpOffset⟩, folded, checked⟩
  rcases bind_unit_eq_ok.mp checked with ⟨_, done⟩
  cases done
  have rebuilt := foldlM_invariant (fun count (state : List OpBatch × Nat) =>
    (forall batch, batch ∈ state.1 -> CanonicalBatch batch) ∧ state.1.length = count) (by
      rintro index ⟨⟨indptr, padding⟩, batchIdx⟩ ⟨done, offset⟩ next found ⟨canonical,
        count⟩ stepped
      rcases (rebuildBatch_eq_ok (wireIndptr_of_entry wire found)).mp stepped with
        ⟨batch, rebuilt, _, _, _, _, rfl⟩
      exact ⟨forall_mem_append.mpr ⟨canonical, forall_mem_singleton.mpr rebuilt⟩,
        length_append.trans (congrArg (· + 1) count)⟩)
    ⟨forall_mem_nil _, rfl⟩ folded
  refine ⟨rebuilt.1, ?_⟩
  rw [rebuilt.2, length_zipIdx, length_zip]
  exact (Nat.min_le_left _ _).trans_lt few

/-! ## What a digest commits to -/

/-- The two sources of operation batches: batching operations, and decoding
them. -/
def BuiltBatch (batch : OpBatch) : Prop :=
  (∃ ops batches, (batchOps ops : Outcome MastForestError _) = ok batches ∧ batch ∈ batches) ∨
    ∃ nodeData opsOffset batches, decodeOperations nodeData opsOffset = ok batches ∧ batch ∈ batches

theorem BuiltBatch.canonical {batch : OpBatch}
    (built : BuiltBatch batch) : CanonicalBatch batch := by
  rcases built with
    ⟨ops, batches, batched, member⟩ | ⟨nodeData, opsOffset, batches, decoded, member⟩
  · exact canonical_of_batchOps batched batch member
  · exact (decodeOperations_spec decoded).1 batch member

/-- The rebuilding loop leaves no operations behind the groups it counts. -/
theorem CanonicalBatch.coversOps {batch : OpBatch}
    (canonical : CanonicalBatch batch) : batch.CoversOps := by
  have valid := canonical.structured
  rcases highestOpGroup_spec valid.monotone with ⟨upper, flat⟩
  have counted := foldlM_invariant (fun count (state : Vector Felt 8 × Nat) => state.2 ≤ 8 ∧
      forall index, state.2 ≤ index -> index < count ->
        (bareBatch batch.ops batch.indptr).groupOps index = [])
    (fun count item state next found ⟨room, empty⟩ ran => by
      rcases getElem?_range_eq_some.mp found with ⟨inLoop, rfl⟩
      have inRange := Nat.lt_of_lt_of_le inLoop upper
      rcases (rebuildGroup_eq_ok valid inRange).mp ran with ⟨none, rfl⟩ | ⟨_, free, rfl⟩
      · refine ⟨room, fun index above below => ?_⟩
        rcases Nat.lt_succ_iff_lt_or_eq.mp below with earlier | rfl
        · exact empty index above earlier
        · exact none
      · refine ⟨slots_room inRange free, fun index above below => ?_⟩
        dsimp only at above
        omega)
    ⟨Nat.zero_le 8, fun index _ none => absurd none (Nat.not_lt_zero index)⟩ canonical.rebuilt
  rw [length_range] at counted
  have rest := valid.indptrAt_of_empty batch.numGroups (8 - batch.numGroups)
    (by have := counted.1; omega) (fun index above below => by
      rcases lt_or_ge index (highestOpGroup batch.indptr) with inLoop | behind
      · exact counted.2 index above inLoop
      · exact (valid.groupOps_eq_nil (by omega)).mpr (flat index behind (by omega)))
  refine ⟨canonical.first, ?_⟩
  rw [Nat.add_sub_cancel' counted.1] at rest
  exact rest.trans canonical.final

/-- The hashed groups of a valid block determine its program text, and so
does its digest under a hash without collisions among the inputs in use.
The second half of each conclusion is about everything the batches hold: in
batches that `batch_ops` or `decode_operations` returned, no operation lies
outside the groups. -/
theorem groups_commit_to_text (left right : List OpBatch)
    (leftValid : validateBatchInvariants left = ok ())
    (rightValid : validateBatchInvariants right = ok ())
    (leftZeros : forall batch, batch ∈ left -> batch.UnusedGroupsZero)
    (rightZeros : forall batch, batch ∈ right -> batch.UnusedGroupsZero) :
    ∃ leftOps rightOps, (rawOperations left : Outcome String (List Operation)) = ok leftOps ∧
      (rawOperations right : Outcome String (List Operation)) = ok rightOps ∧
      (opGroups left = opGroups right ->
        programText leftOps = programText rightOps ∧
        ((forall batch, batch ∈ left ++ right -> BuiltBatch batch) ->
          programText (operations left) = programText (operations right))) ∧
      (forall (hashElements : List Felt -> Word) (inputs : Set (List Felt)),
        Set.InjOn hashElements inputs -> opGroups left ∈ inputs -> opGroups right ∈ inputs ->
        hashElements (opGroups left) = hashElements (opGroups right) ->
        programText leftOps = programText rightOps ∧
        ((forall batch, batch ∈ left ++ right -> BuiltBatch batch) ->
          programText (operations left) = programText (operations right))) := by
  have leftBatches := validateBatchInvariants_eq_ok.mp leftValid
  have rightBatches := validateBatchInvariants_eq_ok.mp rightValid
  rcases leftBatches.rawOperations_text leftZeros with ⟨leftOps, leftRun, leftText⟩
  rcases rightBatches.rawOperations_text rightZeros with ⟨rightOps, rightRun, rightText⟩
  have fromGroups : opGroups left = opGroups right ->
      programText leftOps = programText rightOps ∧
      ((forall batch, batch ∈ left ++ right -> BuiltBatch batch) ->
        programText (operations left) = programText (operations right)) := by
    intro same
    have blocks := readBlock_congr same
    refine ⟨by rw [leftText, rightText, blocks], fun built => ?_⟩
    rw [leftBatches.operations_text leftZeros
        (fun batch member => (built batch (mem_append_left right member)).canonical.coversOps),
      rightBatches.operations_text rightZeros
        (fun batch member => (built batch (mem_append_right left member)).canonical.coversOps), blocks]
  exact ⟨leftOps, rightOps, leftRun, rightRun, fromGroups,
    fun hashElements inputs injective leftIn rightIn digests =>
      fromGroups (injective leftIn rightIn digests)⟩

/-- A block of one `assert`. -/
def assertBlock (errCode : Felt) : List OpBatch :=
  [{ ops := [.assert errCode]
     indptr := #v[0, 1, 1, 1, 1, 1, 1, 1, 1]
     padding := Vector.replicate 8 false
     groups := #v[32, 0, 0, 0, 0, 0, 0, 0]
     numGroups := 1 }]

/-- Two blocks that differ in an error code only. -/
theorem groups_commit_to_text_assert : assertBlock 1 ≠ assertBlock 2 ∧
    ∃ leftOps rightOps,
      (rawOperations (assertBlock 1) : Outcome String (List Operation)) = ok leftOps ∧
      (rawOperations (assertBlock 2) : Outcome String (List Operation)) = ok rightOps ∧
      programText leftOps = programText rightOps ∧
      programText (operations (assertBlock 1)) = programText (operations (assertBlock 2)) := by
  have zeros : forall errCode batch, batch ∈ assertBlock errCode -> batch.UnusedGroupsZero := by
    intro errCode batch member groupIdx unused inBatch
    rcases mem_singleton.mp member with rfl
    have positions : forall index : Fin 8, 1 ≤ index.val ->
        (#v[32, 0, 0, 0, 0, 0, 0, 0] : Vector Felt 8)[index.val]?.getD 0 = 0 := by decide
    exact positions ⟨groupIdx, inBatch⟩ unused
  have left : (batchOps [.assert 1] : Outcome MastForestError _) = ok (assertBlock 1) := by
    decide +kernel
  have right : (batchOps [.assert 2] : Outcome MastForestError _) = ok (assertBlock 2) := by
    decide +kernel
  rcases groups_commit_to_text (assertBlock 1) (assertBlock 2) (by decide) (by decide) (zeros 1)
    (zeros 2) with ⟨leftOps, rightOps, leftRun, rightRun, fromGroups, -⟩
  rcases fromGroups rfl with ⟨raw, held⟩
  refine ⟨by decide, leftOps, rightOps, leftRun, rightRun, raw, held (fun batch member => .inl ?_)⟩
  rcases mem_append.mp member with first | second
  · exact ⟨_, _, left, first⟩
  · exact ⟨_, _, right, second⟩

/-! ## Encoding and decoding -/

/-- The four bytes `indptr` is packed into. -/
def packedIndptr (indptr : Vector Nat 9) : List UInt8 :=
  packNibbles ((List.range 8).map (fun i =>
    (bareBatch [] indptr).indptrAt (i + 1) - (bareBatch [] indptr).indptrAt i))

theorem nibbles_packNibbles : forall (deltas : List Nat), deltas.length % 2 = 0 ->
    (forall delta, delta ∈ deltas -> delta < 16) -> nibbles (packNibbles deltas) = deltas
  | [], _, _ => rfl
  | [_], odd, _ => absurd odd (by simp)
  | low :: high :: rest, even, small => by
      have lowSmall := small low (by simp)
      have highSmall := small high (by simp)
      have others := nibbles_packNibbles rest
        (by rw [length_cons, length_cons] at even; omega)
        (fun delta member => small delta (by simp [member]))
      have value : low ||| high <<< 4 = high * 16 + low := by
        rw [Nat.or_comm, ← shiftLeft_add_eq_or_of_lt (show low < 2 ^ 4 by omega), shiftLeft_eq]
      have byte : (ofNat (low ||| high <<< 4)).toNat = high * 16 + low := by
        rw [value, toNat_ofNat', mod_eq_of_lt (by omega)]
      rw [packNibbles, nibbles, flatMap_cons, byte, show (high * 16 + low) % 16 = low by omega,
        show (high * 16 + low) / 16 = high by omega]
      rw [nibbles] at others
      rw [others]
      rfl

theorem length_packNibbles : forall (deltas : List Nat),
    (packNibbles deltas).length = deltas.length / 2
  | [] => rfl
  | [_] => by simp [packNibbles]
  | low :: high :: rest => by
      rw [packNibbles, length_cons, length_packNibbles rest, length_cons, length_cons]
      omega

theorem length_packedIndptr (indptr : Vector Nat 9) : (packedIndptr indptr).length = 4 := by
  rw [packedIndptr, length_packNibbles, length_map, length_range]

/-- Differences add up again. -/
theorem sum_take_differences (values : Nat -> Nat) (first : values 0 = 0) (count : Nat)
    (monotone : forall index, index < count -> values index ≤ values (index + 1)) {index : Nat}
    (inRange : index ≤ count) :
    ((((List.range count).map (fun i => values (i + 1) - values i)).take index).sum) =
      values index := by
  induction index with
  | zero => rw [take_zero, sum_nil, first]
  | succ index ih =>
    have ordered := monotone index inRange
    rw [take_add_one, sum_append_nat, ih (by omega), getElem?_map, getElem?_range inRange]
    simp only [Option.map_some, Option.toList_some, sum_singleton]
    omega

section RoundTrip

variable {start reserve : Nat} {batch : OpBatch}

theorem CanonicalBatch.packIndptrDeltas_eq (canonical : CanonicalBatch batch) :
    (packIndptrDeltas batch.indptr : Outcome ε _) = ok (packedIndptr batch.indptr) := by
  unfold packIndptrDeltas
  rw [batch.readAt_indptr (by decide), ok_bind, require_of canonical.first, ok_bind,
    collect_eq_ok_map (fun i =>
      (bareBatch [] batch.indptr).indptrAt (i + 1) - (bareBatch [] batch.indptr).indptrAt i)]
  · rfl
  · intro index member
    have inRange := mem_range.mp member
    have step := canonical.steps index inRange
    rw [indptrDelta, batch.readAt_indptr (by omega), ok_bind, batch.readAt_indptr (by omega),
      ok_bind, checkedSub_of_le step.1, ok_bind, require_of (by omega), ok_bind]
    rfl

theorem CanonicalBatch.unpackIndptrDeltas_eq (canonical : CanonicalBatch batch) :
    unpackIndptrDeltas (packedIndptr batch.indptr) = ok batch.indptr := by
  have unpacked : nibbles (packedIndptr batch.indptr) = (List.range 8).map (fun i =>
      batch.indptrAt (i + 1) - batch.indptrAt i) := by
    apply nibbles_packNibbles
    · rw [length_map, length_range]
    · intro delta member
      rcases mem_map.mp member with ⟨index, inList, rfl⟩
      have step := canonical.steps index (mem_range.mp inList)
      change batch.indptrAt (index + 1) - batch.indptrAt index < 16
      omega
  rw [unpackIndptrDeltas_eq_ok, unpacked]
  constructor
  · intro delta member
    rcases mem_map.mp member with ⟨index, inList, rfl⟩
    have step := canonical.steps index (mem_range.mp inList)
    omega
  · ext index inRange
    rw [Vector.getElem_ofFn, sum_take_differences batch.indptrAt canonical.first 8
      (fun index inRange => (canonical.steps index inRange).1) (by omega)]
    simp [indptrAt, inRange]

theorem readIndptr_reads (canonical : CanonicalBatch batch) :
    Reads readIndptr start reserve (packedIndptr batch.indptr) batch.indptr :=
  (readSlice_reads (length_packedIndptr batch.indptr)).bind_lift canonical.unpackIndptrDeltas_eq

theorem packFlags_lt (flags : List Bool) : packFlags flags < 2 ^ flags.length := by
  induction flags with
  | nil => simp [packFlags]
  | cons flag rest ih =>
    have bit := Bool.toNat_le flag
    rw [packFlags, length_cons, pow_succ]
    omega

theorem testBit_packFlags (flags : List Bool) (index : Nat) :
    (packFlags flags).testBit index = flags.getD index false := by
  induction flags generalizing index with
  | nil => simp [packFlags]
  | cons flag rest ih =>
    cases index with
    | zero => cases flag <;> simp [packFlags, testBit_zero, add_mod]
    | succ index =>
      have half : (flag.toNat + 2 * packFlags rest) / 2 = packFlags rest := by
        have bit := Bool.toNat_lt flag
        omega
      rw [packFlags, testBit_succ, half, ih, getD_cons_succ]

theorem unpackFlags_packFlags (padding : Vector Bool 8) :
    unpackFlags (ofNat (packFlags padding.toList)) = padding := by
  have small := packFlags_lt padding.toList
  rw [Vector.length_toList] at small
  ext index inRange
  rw [unpackFlags, Vector.getElem_ofFn, toNat_ofNat', mod_eq_of_lt small, testBit_packFlags]
  simp [inRange]

theorem readPadding_reads (padding : Vector Bool 8) :
    Reads readPadding start reserve [ofNat (packFlags padding.toList)] padding := by
  have reads := (@readU8_reads start reserve (ofNat (packFlags padding.toList))).bind_pure
    unpackFlags
  rwa [unpackFlags_packFlags] at reads

/-- The bytes of a block of canonical batches. -/
def blockBytes (batches : List OpBatch) : List UInt8 :=
  writeVec Operation.writeInto (operations batches) ++
    (writeU32 (batches.length % 2 ^ 32) ++
      ((batches.map OpBatch.indptr).flatMap packedIndptr ++
        (batches.map OpBatch.padding).flatMap
          (fun padding => [UInt8.ofNat (packFlags padding.toList)])))

section Canonical

variable (canonical : forall batch, batch ∈ batches -> CanonicalBatch batch)
include canonical

theorem basicBlockBytes_eq : (basicBlockBytes batches : Outcome ε _) = ok (blockBytes batches) := by
  rw [basicBlockBytes, collect_eq_ok_map (fun batch => packedIndptr batch.indptr)
    (fun batch member => (canonical batch member).packIndptrDeltas_eq), ok_bind, blockBytes,
    flatMap_map, flatMap_map, flatMap_def]
  congr 4
  exact map_eq_flatMap

theorem readBlockData_reads (few : batches.length < 2 ^ 32)
    (fewOps : (operations batches).length < usizeLimit) :
    Reads readBlockData start reserve (blockBytes batches)
      ⟨operations batches, batches.map OpBatch.indptr, batches.map OpBatch.padding⟩ := by
  have indptrs : forall start reserve, Reads (readIndptr.many batches.length) start reserve
      ((batches.map indptr).flatMap packedIndptr) (batches.map indptr) := by
    intro start reserve
    have many := @many _ _ _ readIndptr start reserve packedIndptr
      (batches.map indptr) (fun indptr member start reserve => by
        rcases mem_map.mp member with ⟨batch, inBatches, rfl⟩
        exact readIndptr_reads (canonical batch inBatches))
    rwa [length_map] at many
  have paddings : forall start reserve, Reads (readPadding.many batches.length) start reserve
      ((batches.map padding).flatMap
        (fun padding => [ofNat (packFlags padding.toList)]))
      (batches.map padding) := by
    intro start reserve
    have many := @many _ _ _ readPadding start reserve
      (fun padding => [ofNat (packFlags padding.toList)]) (batches.map padding)
      (fun padding _ start reserve => readPadding_reads padding)
    rwa [length_map] at many
  have metadata : batches.length * 5 ≤ ((batches.map indptr).flatMap packedIndptr ++
      (batches.map padding).flatMap
        (fun padding => [ofNat (packFlags padding.toList)])).length := by
    simp [length_flatMap, length_packedIndptr, Function.comp_def]
    omega
  apply Reads.bind (readVec_reads writeInto _ (by decide)
    (fun op _ => by
      rw [length_writeInto]
      exact minSerializedSize_le op)
    (fun op _ start reserve => readFrom_reads op) fewOps)
  rw [mod_eq_of_lt few]
  apply bind (readU32_reads few)
  apply bind_nil
  · exact checkAlloc _ (by decide) (le_trans metadata (Nat.le_add_right _ _))
  · apply bind (indptrs _ _)
    exact (paddings _ _).bind_pure (fun paddings =>
      BlockData.mk (operations batches) (batches.map indptr) paddings)

/-- The rebuilding loop goes through canonical batches and returns them. -/
theorem foldlM_rebuildBatch (front : List Operation) (done : List OpBatch) (batchIdx : Nat) :
    (((batches.map OpBatch.indptr).zip (batches.map OpBatch.padding)).zipIdx batchIdx).foldlM
        (rebuildBatch (front ++ operations batches)) (done, front.length) =
      ok (done ++ batches, (front ++ operations batches).length) := by
  induction batches generalizing front done batchIdx with
  | nil => simp [operations]
  | cons batch rest ih =>
    have split : front ++ operations (batch :: rest) = (front ++ batch.ops) ++ operations rest := by
      simp [operations]
    have head := canonical batch mem_cons_self
    have wire : WireIndptr batch.indptr := ⟨head.first, head.steps⟩
    have stepped : rebuildBatch (front ++ operations (batch :: rest)) (done, front.length)
        ((batch.indptr, batch.padding), batchIdx) =
          ok (done ++ [batch], (front ++ batch.ops).length) := by
      refine (rebuildBatch_eq_ok wire).mpr ⟨batch, head, rfl, rfl, ?_, ?_, ?_⟩
      · rw [split]
        simp
      · rw [split, take_append_of_le_length (by simp), ← length_append, take_length, drop_left]
      · rw [length_append]
    have others := ih (fun other member => canonical other (mem_cons_of_mem batch member))
      (front ++ batch.ops) (done ++ [batch]) (batchIdx + 1)
    rw [map_cons, map_cons, zip_cons_cons, zipIdx_cons, foldlM_cons,
      stepped, ok_bind, split, others, append_assoc]
    rfl

/-- A block of canonical batches is decoded from wherever its bytes stand. -/
theorem decodeOperations_blockBytes (few : batches.length < 2 ^ 32)
    (fewOps : (operations batches).length < usizeLimit) (front back : List UInt8) :
    decodeOperations (front ++ (blockBytes batches ++ back)) front.length = ok batches := by
  unfold decodeOperations
  rw [ensure_of (by simp), ok_bind, drop_left]
  have read := readBlockData_reads canonical few fewOps
    (Source.new (blockBytes batches ++ back)
      (some ((front ++ (blockBytes batches ++ back)).length - front.length))) back rfl rfl
    (fun limit present => by
      cases present
      simp
      exact Nat.le_add_right _ 0)
  rw [read, ok_bind]
  have folded := foldlM_rebuildBatch canonical [] [] 0
  rw [nil_append, nil_append, length_nil] at folded
  unfold rebuildBatches
  dsimp only
  rw [folded, ok_bind, ensure_of rfl, ok_bind]

end Canonical

end RoundTrip

end MidenVm.Mast
