import MidenVm.Mast.GroupLayout

namespace MidenVm.Mast

open Foundation Outcome BatchLayout OpBatchAccumulator Operation Segments Felt Slot
open List hiding Vector

/-!
# The accumulator builds layouts

The accumulator is described by the groups it has closed and the operations
of its open group.  `Represents` ties its four arrays and three counters to
that description: the closed slots are final, the slot of the open group is
still blank, the immediates of its pushes are already placed, and their
`indptr` entries carry the invalid marker.  Each accumulator operation is then
one step on the description, and `batch_ops` is a run of such steps whose
result is a list of layouts.
-/

/-! ## Closing a group -/

/-- A group that can be closed: it fits, and a final push leaves room for the
NOOP that must follow it. -/
structure Closable (current : List Operation) : Prop where
  length_le : current.length ≤ 9
  room : (current.getLast?.bind Operation.immValue).isSome = true -> current.length ≤ 8

/-- The condition under which `pad_if_needed` pads. -/
def needsPad (current : List Operation) : Bool :=
  current.isEmpty || (current.getLast?.bind Operation.immValue).isSome

def closedOps (current : List Operation) : List Operation :=
  if needsPad current then current ++ [.noop] else current

theorem closable_nil : Closable [] := ⟨by decide, by decide⟩

/-- The group the accumulator leaves behind when it moves on. -/
def closeGroup (current : List Operation) (closable : Closable current) : OpGroup where
  ops := closedOps current
  padded := needsPad current
  nonempty := by
    unfold closedOps
    split
    · simp
    · rename_i unpadded
      rintro rfl
      exact unpadded rfl
  length_le := by
    unfold closedOps
    split
    · rename_i padded
      rw [List.length_append, List.length_singleton]
      rcases Bool.or_eq_true_iff.mp padded with empty | push
      · simp [List.isEmpty_iff.mp empty]
      · exact Nat.succ_le_succ (closable.room push)
    · exact closable.length_le
  ending := by
    unfold closedOps
    split
    · simp [Operation.immValue]
    · rename_i unpadded
      rw [needsPad, Bool.or_eq_true_iff, not_or] at unpadded
      simpa using unpadded.2
  padding := by
    intro padded
    simp [closedOps, padded]

theorem rawOps_closeGroup (current : List Operation) (closable : Closable current) :
    (closeGroup current closable).rawOps = current := by
  change (if needsPad current then (closedOps current).dropLast else closedOps current) = current
  unfold closedOps
  split <;> simp

theorem immediates_closedOps (current : List Operation) :
    immediates (closedOps current) = immediates current := by
  unfold closedOps
  split
  · rw [immediates_append]
    simp [immediates, immValue]
  · rfl

theorem packFrom_append (idx value : Nat) (front : List Operation) (op : Operation) :
    packFrom idx value (front ++ [op]) =
      packFrom idx value front ||| op.opCode <<< (opBits * (idx + front.length)) := by
  induction front generalizing idx value with
  | nil => rfl
  | cons head tail ih =>
    rw [cons_append, packFrom, ih, packFrom, length_cons, add_assoc, add_comm 1]

theorem packFrom_closedOps (current : List Operation) :
    packFrom 0 0 (closedOps current) = packFrom 0 0 current := by
  unfold closedOps
  split
  · rw [packFrom_append]
    simp [opCode]
  · rfl

/-! ## The accumulator and its description -/

def slotValue (slots : List Slot) (index : Nat) : Felt := (slots[index]?.map Slot.value).getD 0

def slotPadded (slots : List Slot) (index : Nat) : Bool :=
  (slots[index]?.map Slot.padded).getD false

/-- The slots the open group occupies: its own, still blank, and those of the
immediates of its pushes. -/
def openSlots (current : List Operation) : List Slot := (0 :: immediates current).map Slot.immediate

structure Represents (acc : OpBatchAccumulator) (closed : List OpGroup)
    (current : List Operation) : Prop where
  ops : acc.ops = ((layoutSlots closed).map Slot.ops).flatten ++ current
  opIdx : acc.opIdx = current.length
  group : acc.group = packFrom 0 0 current
  groupIdx : acc.groupIdx = (layoutSlots closed).length
  nextGroupIdx : acc.nextGroupIdx = (layoutSlots closed).length + 1 + (immediates current).length
  groups : forall index (inRange : index < 8),
    acc.groups[index] = slotValue (layoutSlots closed ++ openSlots current) index
  padding : forall index (inRange : index < 8), acc.padding[index] =
    slotPadded (layoutSlots closed) index
  indptr : forall index (inRange : index < 9), acc.indptr[index] =
    if index ≤ (layoutSlots closed).length
      then Segments.offset ((layoutSlots closed).map Slot.ops) index
    else if index < acc.nextGroupIdx then OpBatchAccumulator.invalidIdx else 0
  fits : acc.nextGroupIdx ≤ 8
  closable : Closable current

theorem new_represents : Represents new [] [] where
  ops := rfl
  opIdx := rfl
  group := rfl
  groupIdx := rfl
  nextGroupIdx := rfl
  groups := fun index inRange => by
    cases index <;> simp [new, slotValue, openSlots, immediate]
  padding := fun index inRange => by simp [new, slotPadded]
  indptr := fun index inRange => by
    cases index <;> simp [new]
  fits := by decide
  closable := closable_nil

/-- The arrays hold exactly the slots of the groups, and nothing is open. -/
structure Sealed (acc : OpBatchAccumulator) (closed : List OpGroup) : Prop where
  ops : acc.ops = ((layoutSlots closed).map Slot.ops).flatten
  nextGroupIdx : acc.nextGroupIdx = (layoutSlots closed).length
  groups : forall index (inRange : index < 8), acc.groups[index] =
    slotValue (layoutSlots closed) index
  padding : forall index (inRange : index < 8), acc.padding[index] =
    slotPadded (layoutSlots closed) index
  indptr : forall index (inRange : index < 9), acc.indptr[index] =
    if index ≤ (layoutSlots closed).length
      then Segments.offset ((layoutSlots closed).map Slot.ops) index
    else 0

/-! ## Sealing the open group -/

variable {ε : Type} {acc : OpBatchAccumulator} {closed : List OpGroup} {current : List Operation}
    {op : Operation}

theorem length_flatten_layoutSlots_le (closed : List OpGroup) :
    ((layoutSlots closed).map Slot.ops).flatten.length ≤ 9 * (layoutSlots closed).length := by
  induction closed with
  | nil => simp
  | cons head tail ih =>
    have bound := head.length_le
    have slotOps : (head.slots.map Slot.ops).flatten = head.ops := by
      simp [OpGroup.slots, OpGroup.opSlot, immediate, Function.comp_def]
    have width : 1 ≤ head.slots.length := by simp [OpGroup.slots]
    rw [layoutSlots_cons, map_append, flatten_append, length_append, length_append, slotOps]
    omega

/-- The `while` loop replaces the invalid markers above the open group and
stops at the open group itself, whose entry is a real index. -/
theorem correctIndptr_eq {groupIdx : Nat} (opsLen uninit : Nat) (indptr : Vector Nat 9)
    (above : groupIdx ≤ uninit) (inRange : uninit < 9)
    (marked : forall index (bound : index < 9), groupIdx < index -> index ≤ uninit ->
      indptr[index] = invalidIdx)
    (stop : indptr[groupIdx] ≠ invalidIdx) :
    ∃ corrected, (correctIndptr groupIdx opsLen uninit indptr :
        Outcome ε (Vector Nat 9)) = ok corrected ∧
      forall index (bound : index < 9), corrected[index] =
        if groupIdx < index ∧ index ≤ uninit then opsLen else indptr[index] := by
  induction uninit generalizing indptr with
  | zero =>
    obtain rfl : groupIdx = 0 := by omega
    refine ⟨indptr, ?_, fun index bound => (if_neg (by omega)).symm⟩
    rw [correctIndptr, if_pos (le_refl 0), readAt_of_lt _ inRange, ok_bind, if_neg stop]
  | succ uninit ih =>
    rw [correctIndptr, if_pos above, readAt_of_lt _ inRange, ok_bind]
    by_cases atOpen : groupIdx = uninit + 1
    · subst atOpen
      exact ⟨indptr, if_neg stop, fun index bound => (if_neg (by omega)).symm⟩
    · have here : indptr[uninit + 1] = invalidIdx :=
        marked (uninit + 1) inRange (by omega) (le_refl _)
      obtain ⟨corrected, run, entries⟩ := ih (indptr.set (uninit + 1) opsLen) (by omega)
        (by omega)
        (fun index bound low high => by
          rw [Vector.getElem_set_ne inRange bound (by omega)]
          exact marked index bound low (by omega))
        (by rwa [Vector.getElem_set_ne inRange (by omega) (by omega)])
      refine ⟨corrected, ?_, fun index bound => ?_⟩
      · rw [if_pos here, writeAt_of_lt _ _ inRange, ok_bind]
        exact run
      · rw [entries index bound]
        by_cases same : index = uninit + 1
        · subst same
          simp [show groupIdx < uninit + 1 by omega]
        · rw [Vector.getElem_set_ne inRange bound (by omega)]
          simp only [show (groupIdx < index ∧ index ≤ uninit) ↔
            (groupIdx < index ∧ index ≤ uninit + 1) by omega]

/-- `finalize_indptr` gives the next free group, and every immediate of the
open group, the current number of operations as its start. -/
theorem finalizeIndptr_eq {nextOps : OpBatchAccumulator}
    (rep : Represents acc closed current) (sameIndptr : nextOps.indptr = acc.indptr)
    (sameGroup : nextOps.groupIdx = acc.groupIdx)
    (sameNext : nextOps.nextGroupIdx = acc.nextGroupIdx) :
    ∃ corrected, (nextOps.finalizeIndptr : Outcome ε OpBatchAccumulator) =
        ok { nextOps with indptr := corrected } ∧
      forall index (bound : index < 9), corrected[index] =
        if index ≤ acc.groupIdx then acc.indptr[index]
        else if index ≤ acc.nextGroupIdx then nextOps.ops.length else 0 := by
  have fits := rep.fits
  have next := rep.nextGroupIdx
  have openIdx := rep.groupIdx
  have written : acc.nextGroupIdx < 9 := by omega
  have openEntry : acc.indptr[acc.groupIdx] ≠ invalidIdx := by
    have size := length_flatten_layoutSlots_le closed
    have past : offset ((layoutSlots closed).map Slot.ops) acc.groupIdx =
        ((layoutSlots closed).map Slot.ops).flatten.length :=
      offset_of_length_le (by rw [length_map]; omega)
    rw [rep.indptr _ (by omega), if_pos (by omega), past, invalidIdx, batchSize, groupSize]
    omega
  obtain ⟨corrected, run, entries⟩ := @correctIndptr_eq ε _ nextOps.ops.length
    (acc.nextGroupIdx - 1) (acc.indptr.set acc.nextGroupIdx nextOps.ops.length)
    (show acc.groupIdx ≤ acc.nextGroupIdx - 1 by omega) (by omega)
    (fun index bound low high => by
      rw [Vector.getElem_set_ne written bound (by omega), rep.indptr index bound,
        if_neg (by omega), if_pos (by omega)])
    (by rwa [Vector.getElem_set_ne written (by omega) (by omega)])
  refine ⟨corrected, ?_, fun index bound => ?_⟩
  · rw [finalizeIndptr, sameIndptr, sameGroup, sameNext,
      writeAt_of_lt _ _ written, ok_bind, checkedSub_of_le (by omega), ok_bind, run, ok_bind]
  · rw [entries index bound]
    by_cases atNext : index = acc.nextGroupIdx
    · subst atNext
      rw [if_neg (by omega), if_neg (by omega), if_pos (le_refl _), Vector.getElem_set_self]
    · rw [Vector.getElem_set_ne written bound (by omega)]
      by_cases below : index ≤ acc.groupIdx
      · rw [if_neg (by omega), if_pos below]
      · by_cases inside : index ≤ acc.nextGroupIdx
        · rw [if_pos (by omega), if_neg below, if_pos inside]
        · rw [if_neg (by omega), if_neg below, if_neg inside, rep.indptr index bound,
            if_neg (by omega), if_neg (by omega)]

/-- `pad_if_needed` appends the padding NOOP and raises the flag of the open
group, exactly when the group needs it. -/
theorem padIfNeeded_eq {front : List Operation} (ops : acc.ops = front ++ current)
    (opIdx : acc.opIdx = current.length) (group : acc.group = packFrom 0 0 current)
    (inRange : acc.groupIdx < 8) :
    ∃ padded, (acc.padIfNeeded : Outcome ε OpBatchAccumulator) = ok padded ∧
      padded.ops = front ++ closedOps current ∧ padded.group = packFrom 0 0 current ∧
      padded.indptr = acc.indptr ∧ padded.groups = acc.groups ∧
      padded.groupIdx = acc.groupIdx ∧ padded.nextGroupIdx = acc.nextGroupIdx ∧
      forall index (bound : index < 8), padded.padding[index] =
        if index = acc.groupIdx ∧ needsPad current then true else acc.padding[index] := by
  have condition : (acc.opIdx = 0 ∨ (acc.ops.getLast?.bind immValue).isSome = true) ↔
      needsPad current = true := by
    rw [opIdx, ops, needsPad, Bool.or_eq_true_iff, List.isEmpty_iff, length_eq_zero_iff]
    rcases eq_nil_or_concat current with empty | ⟨initial, last, shape⟩
    · simp [empty]
    · simp [shape, getLast?_append]
  unfold padIfNeeded
  by_cases pad : needsPad current = true
  · rw [if_pos (condition.mpr pad), writeAt_of_lt _ _ inRange, ok_bind]
    refine ⟨_, rfl, ?_, ?_, rfl, rfl, rfl, rfl, fun index bound => ?_⟩
    · simp [pushOp, ops, closedOps, pad]
    · simp [pushOp, group, opCode]
    · simp [Vector.getElem_set, pad, eq_comm]
  · rw [if_neg (mt condition.mp pad)]
    exact ⟨acc, rfl, by simp [ops, closedOps, pad], group, rfl, rfl, rfl, rfl,
      fun index bound => (if_neg (fun both => pad both.2)).symm⟩

theorem slotValue_open (base rest : List Slot) (slot : Slot) (index : Nat) :
    slotValue (base ++ slot :: rest) index = if index = base.length then slot.value
      else slotValue (base ++ immediate 0 :: rest) index := by
  simp only [slotValue, getElem?_append, getElem?_cons]
  grind

theorem slotValue_blank (slots : List Slot) (index : Nat) :
    slotValue (slots ++ [immediate 0]) index = slotValue slots index := by
  by_cases inside : index < slots.length
  · rw [slotValue, slotValue, getElem?_append_left inside]
  · rw [slotValue, slotValue, getElem?_append_right (by omega), getElem?_singleton,
      getElem?_eq_none (by omega : slots.length ≤ index)]
    split <;> rfl

theorem slotPadded_open (base : List Slot) (slot : Slot) (values : List Felt) (index : Nat) :
    slotPadded (base ++ slot :: values.map immediate) index =
      if index = base.length then slot.padded else slotPadded base index := by
  -- immediates are not padded, and neither is what lies behind the slots
  have beyond (past : Nat) : slotPadded (values.map immediate) past = false := by
    rw [slotPadded, getElem?_map]
    cases values[past]? <;> rfl
  simp only [slotPadded, getElem?_append, getElem?_cons] at beyond ⊢
  grind

theorem layoutSlots_close (rep : Represents acc closed current) :
    layoutSlots (closed ++ [closeGroup current rep.closable]) =
      layoutSlots closed ++ (closeGroup current rep.closable).opSlot ::
        (immediates current).map immediate := by
  rw [layoutSlots_append]
  congr 1
  change (closeGroup current rep.closable).slots ++ [] = _
  rw [append_nil, OpGroup.slots]
  change _ :: (immediates (closedOps current)).map immediate = _
  rw [immediates_closedOps]

theorem length_layoutSlots_close (rep : Represents acc closed current) :
    (layoutSlots (closed ++ [closeGroup current rep.closable])).length = acc.nextGroupIdx := by
  rw [layoutSlots_close rep, rep.nextGroupIdx, length_append, length_cons, length_map]
  omega

theorem Represents.groupIdx_lt (rep : Represents acc closed current) : acc.groupIdx < 8 := by
  have fits := rep.fits
  rw [rep.nextGroupIdx] at fits
  rw [rep.groupIdx]
  omega

/-- Once the open group is padded, its value written and `indptr` corrected,
the arrays hold the slots of one more group. -/
theorem finalizeIndptr_sealed {padded : OpBatchAccumulator} (rep : Represents acc closed current)
    (ops : padded.ops = ((layoutSlots closed).map Slot.ops).flatten ++ closedOps current)
    (indptr : padded.indptr = acc.indptr) (groupIdx : padded.groupIdx = acc.groupIdx)
    (nextGroupIdx : padded.nextGroupIdx = acc.nextGroupIdx)
    (groups : forall index (inRange : index < 8), padded.groups[index] =
      if index = acc.groupIdx then Felt.newUnchecked (packFrom 0 0 current)
      else acc.groups[index])
    (padding : forall index (inRange : index < 8), padded.padding[index] =
      if index = acc.groupIdx ∧ needsPad current then true else acc.padding[index]) :
    ∃ final, (padded.finalizeIndptr : Outcome ε OpBatchAccumulator) = ok final ∧
      Sealed final (closed ++ [closeGroup current rep.closable]) := by
  obtain ⟨corrected, run, entries⟩ := @finalizeIndptr_eq ε _ _ _ _ rep indptr groupIdx nextGroupIdx
  have opened := rep.groupIdx
  have next := rep.nextGroupIdx
  have fits := rep.fits
  refine ⟨_, run, ?_, ?_, fun index inRange => ?_, fun index inRange => ?_, fun index inRange => ?_⟩
  · rw [layoutSlots_close rep]
    have opened : (closeGroup current rep.closable).opSlot.ops = closedOps current := rfl
    simp [ops, opened, Slot.immediate, Function.comp_def]
  · rw [length_layoutSlots_close rep, nextGroupIdx]
  · rw [layoutSlots_close rep, slotValue_open, ← opened]
    refine (groups index inRange).trans ?_
    split
    · change Felt.newUnchecked _ = Felt.newUnchecked (packFrom 0 0 (closedOps current))
      rw [packFrom_closedOps]
    · exact rep.groups index inRange
  · rw [layoutSlots_close rep, slotPadded_open, ← opened]
    change padded.padding[index] = if index = acc.groupIdx then needsPad current else _
    rw [padding index inRange, rep.padding index inRange]
    by_cases same : index = acc.groupIdx
    · have blank : slotPadded (layoutSlots closed) index = false := by
        rw [slotPadded, getElem?_eq_none (by omega)]
        rfl
      rw [blank, if_pos same]
      simp [same]
    · rw [if_neg (fun both => same both.1), if_neg same]
  · rw [length_layoutSlots_close rep]
    refine (entries index inRange).trans ?_
    by_cases below : index ≤ acc.groupIdx
    · rw [if_pos below, rep.indptr index inRange, if_pos (by omega), if_pos (by omega),
        layoutSlots_close rep, map_append, Segments.offset_append_left (by simp; omega)]
    · rw [if_neg below]
      by_cases inside : index ≤ acc.nextGroupIdx
      · obtain ⟨past, rfl⟩ : ∃ past, index = (layoutSlots closed).length + (past + 1) :=
          ⟨index - (layoutSlots closed).length - 1, by omega⟩
        have tail : offset (((immediates current).map Slot.immediate).map Slot.ops) past = 0 := by
          rw [offset, length_eq_zero_iff, flatten_eq_nil_iff]
          intro part member
          obtain ⟨slot, inSlots, same⟩ := mem_map.mp (mem_of_mem_take member)
          obtain ⟨value, -, rfl⟩ := mem_map.mp inSlots
          exact same.symm
        have position := offset_append_right ((layoutSlots closed).map Slot.ops)
          (((closeGroup current rep.closable).opSlot ::
            (immediates current).map Slot.immediate).map Slot.ops) (past + 1)
        rw [length_map] at position
        rw [if_pos inside, if_pos inside, layoutSlots_close rep, map_append, position,
          map_cons, offset_cons_succ, tail, ops, length_append]
        rfl
      · rw [if_neg inside, if_neg inside]

/-- `finalize_op_group` is one step on the description. -/
theorem finalizeOpGroup_represents (rep : Represents acc closed current)
    (room : acc.nextGroupIdx < 8) :
    ∃ next, (acc.finalizeOpGroup : Outcome ε OpBatchAccumulator) = ok next ∧
      Represents next (closed ++ [closeGroup current rep.closable]) [] ∧
      next.nextGroupIdx = acc.nextGroupIdx + 1 := by
  obtain ⟨padded, run, ops, group, indptr, groups, groupIdx, nextGroupIdx, padding⟩ :=
    @padIfNeeded_eq ε _ _ _ rep.ops rep.opIdx rep.group rep.groupIdx_lt
  have inRange : padded.groupIdx < 8 := groupIdx ▸ rep.groupIdx_lt
  obtain ⟨final, sealRun, sealed⟩ := @finalizeIndptr_sealed ε _ _ _
    { padded with groups := padded.groups.set padded.groupIdx (newUnchecked padded.group) }
    rep ops indptr groupIdx nextGroupIdx
    (fun index bound => by simp [Vector.getElem_set, groupIdx, group, groups, eq_comm]) padding
  refine ⟨{ final with
    groupIdx := final.nextGroupIdx
    nextGroupIdx := final.nextGroupIdx + 1
    opIdx := 0
    group := 0 }, ?_, ?_, ?_⟩
  · rw [finalizeOpGroup, run, ok_bind, writeAt_of_lt _ _ inRange, ok_bind, sealRun, ok_bind]
  · have count := length_layoutSlots_close rep
    have finalNext := sealed.nextGroupIdx
    exact {
      ops := by rw [append_nil]; exact sealed.ops
      opIdx := rfl
      group := rfl
      groupIdx := finalNext
      nextGroupIdx := by change final.nextGroupIdx + 1 = _; rw [finalNext]; rfl
      groups := fun index bound => (sealed.groups index bound).trans (slotValue_blank _ _).symm
      padding := sealed.padding
      indptr := fun index bound => by
        refine (sealed.indptr index bound).trans ?_
        split
        · rfl
        · rename_i outside
          exact (if_neg (by
            change ¬ index < final.nextGroupIdx + 1
            omega)).symm
      fits := by change final.nextGroupIdx + 1 ≤ 8; omega
      closable := closable_nil }
  · change final.nextGroupIdx + 1 = _
    rw [sealed.nextGroupIdx, length_layoutSlots_close rep]

/-! ## Adding an operation -/

/-- An operation without an immediate joins the open group. -/
theorem pushOp_represents (rep : Represents acc closed current) (plain : op.immValue = none)
    (room : current.length < 9) : Represents (acc.pushOp op) closed (current ++ [op]) := by
  have same : immediates (current ++ [op]) = immediates current := by
    rw [immediates_append]
    simp [immediates, plain]
  exact {
    ops := by rw [← append_assoc, ← rep.ops]; rfl
    opIdx := by rw [length_append, ← rep.opIdx]; rfl
    group := by
      rw [packFrom_append, zero_add, ← rep.group, ← rep.opIdx]
      rfl
    groupIdx := rep.groupIdx
    nextGroupIdx := by rw [same]; exact rep.nextGroupIdx
    groups := by rw [openSlots, same]; exact rep.groups
    padding := rep.padding
    indptr := rep.indptr
    fits := rep.fits
    closable := ⟨by simpa using room, by simp [plain]⟩ }

/-- A push joins the open group and its immediate takes the next free slot. -/
theorem placeAndPush_represents {imm : Felt} (rep : Represents acc closed current)
    (room : current.length < 8) (free : acc.nextGroupIdx < 8) :
    ∃ next, (do
        let groups ← writeAt acc.groups acc.nextGroupIdx imm
        let indptr ← writeAt acc.indptr acc.nextGroupIdx invalidIdx
        ok { acc with groups, indptr, nextGroupIdx := acc.nextGroupIdx + 1 } :
          Outcome ε OpBatchAccumulator) = ok next ∧
      Represents (next.pushOp (.push imm)) closed (current ++ [.push imm]) := by
  have added : immediates (current ++ [.push imm]) = immediates current ++ [imm] :=
    immediates_append _ _
  have free' : acc.nextGroupIdx < 9 := by omega
  have next := rep.nextGroupIdx
  refine ⟨_, by rw [writeAt_of_lt _ _ free, ok_bind, writeAt_of_lt _ _ free', ok_bind], ?_⟩
  exact {
    ops := by rw [← append_assoc, ← rep.ops]; rfl
    opIdx := by rw [length_append, ← rep.opIdx]; rfl
    group := by
      rw [packFrom_append, zero_add, ← rep.group, ← rep.opIdx]
      rfl
    groupIdx := rep.groupIdx
    nextGroupIdx := by
      change acc.nextGroupIdx + 1 = _
      rw [added, length_append, next, length_singleton, add_assoc]
    groups := fun index inRange => by
      change (acc.groups.set acc.nextGroupIdx imm)[index] = _
      have shape : layoutSlots closed ++ openSlots (current ++ [.push imm]) =
          (layoutSlots closed ++ openSlots current) ++ [immediate imm] := by
        rw [openSlots, added]
        simp [openSlots]
      have width : (layoutSlots closed ++ openSlots current).length = acc.nextGroupIdx := by
        rw [length_append, openSlots, length_map, length_cons, next]
        omega
      rw [shape, slotValue_open, slotValue_blank, width, Vector.getElem_set,
        rep.groups index inRange]
      simp only [eq_comm]
      rfl
    padding := rep.padding
    indptr := fun index inRange => by
      change (acc.indptr.set acc.nextGroupIdx invalidIdx)[index] =
        if _ then _ else if index < acc.nextGroupIdx + 1 then _ else _
      rw [Vector.getElem_set, rep.indptr index inRange]
      by_cases same : acc.nextGroupIdx = index
      · rw [if_pos same, if_neg (by omega), if_pos (by omega)]
      · rw [if_neg same]
        simp only [show index < acc.nextGroupIdx + 1 ↔ index < acc.nextGroupIdx by omega]
    fits := by change acc.nextGroupIdx + 1 ≤ 8; omega
    closable := ⟨by simp; omega, fun _ => by simp; omega⟩ }

/-- The operations an accumulator accounts for. -/
def Describes (acc : OpBatchAccumulator) (ops : List Operation) : Prop :=
  ∃ closed current, Represents acc closed current ∧ closed.flatMap OpGroup.rawOps ++ current = ops

variable {ops : List Operation}

theorem Represents.close (rep : Represents acc closed current) :
    (closed ++ [closeGroup current rep.closable]).flatMap OpGroup.rawOps =
      closed.flatMap OpGroup.rawOps ++ current := by
  rw [flatMap_append, flatMap_singleton, rawOps_closeGroup]

/-- The immediate-value part of `add_op`, together with the push itself. -/
theorem placeImmediate_represents {imm : Felt} (rep : Represents acc closed current)
    (room : current.length < 9)
    (free : if current.length = 8 then acc.nextGroupIdx + 1 < 8 else acc.nextGroupIdx < 8) :
    ∃ next, (acc.placeImmediate imm : Outcome ε OpBatchAccumulator) = ok next ∧
      Describes (next.pushOp (.push imm)) (closed.flatMap OpGroup.rawOps ++ current ++ [.push imm]) := by
  unfold placeImmediate
  rw [rep.opIdx]
  by_cases full : current.length = 8
  · rw [if_pos full] at free
    obtain ⟨moved, run, movedRep, movedNext⟩ := @finalizeOpGroup_represents ε _ _ _ rep (by omega)
    obtain ⟨next, placed, nextRep⟩ :=
      @placeAndPush_represents ε _ _ _ imm movedRep (by decide) (by omega)
    refine ⟨next, ?_, _, _, nextRep, congrArg (· ++ _) rep.close⟩
    rw [if_pos (show current.length = groupSize - 1 from full), run, ok_bind]
    exact placed
  · rw [if_neg full] at free
    obtain ⟨next, placed, nextRep⟩ := @placeAndPush_represents ε _ _ _ imm rep (by omega) free
    refine ⟨next, ?_, _, _, nextRep, (append_assoc ..).symm⟩
    rw [if_neg (show ¬ current.length = groupSize - 1 from full), ok_bind]
    exact placed

/-- `add_op` after `can_accept_op`: the description grows by the operation. -/
theorem addOp_represents (describes : Describes acc ops) (accepts : acc.canAcceptOp op = true) :
    ∃ next, (acc.addOp op : Outcome ε OpBatchAccumulator) = ok next ∧
      Describes next (ops ++ [op]) := by
  rcases describes with ⟨closed, current, rep, rfl⟩
  have opIdx := rep.opIdx
  have length_le := rep.closable.length_le
  -- a full group is closed first; afterwards the open group has room
  obtain ⟨opened, closed₁, current₁, run, rep₁, described₁, room, grown⟩ :
      ∃ opened closed₁ current₁,
        (if acc.opIdx = groupSize then acc.finalizeOpGroup else ok acc :
          Outcome ε OpBatchAccumulator) = ok opened ∧
        Represents opened closed₁ current₁ ∧
        closed₁.flatMap OpGroup.rawOps ++ current₁ = closed.flatMap OpGroup.rawOps ++ current ∧
        current₁.length < 9 ∧
        (forall imm, op.immValue = some imm ->
          if current₁.length = 8 then opened.nextGroupIdx + 1 < 8 else opened.nextGroupIdx < 8) := by
    unfold canAcceptOp groupSize batchSize at accepts
    unfold groupSize
    by_cases full : acc.opIdx = 9
    · have free : acc.nextGroupIdx < 8 := by
        cases present : op.immValue with
        | none => simpa [present, full] using accepts
        | some imm =>
          have := accepts
          simp [present, full] at this
          omega
      obtain ⟨moved, movedRun, movedRep, movedNext⟩ := @finalizeOpGroup_represents ε _ _ _ rep free
      refine ⟨moved, _, _, by rw [if_pos full]; exact movedRun, movedRep,
        (append_nil _).trans rep.close, by decide, fun imm present => ?_⟩
      simp [present, full] at accepts
      rw [if_neg (by decide), movedNext]
      omega
    · refine ⟨acc, _, _, if_neg full, rep, rfl, by omega, fun imm present => ?_⟩
      simp only [present, Option.isSome_some, if_true, opIdx] at accepts
      split at accepts
      · rw [if_neg (by omega)]
        exact of_decide_eq_true accepts
      · rw [if_pos (by omega)]
        exact of_decide_eq_true accepts
  unfold addOp
  rw [run, ok_bind, ← described₁]
  cases present : op.immValue with
  | none =>
    exact ⟨opened.pushOp op, rfl, _, _, pushOp_represents rep₁ present room, (append_assoc ..).symm⟩
  | some imm =>
    obtain rfl : op = .push imm := by
      cases op <;> first | cases present; rfl | cases present
    obtain ⟨next, placed, described⟩ :=
      @placeImmediate_represents ε _ _ _ imm rep₁ room (grown imm present)
    exact ⟨next.pushOp (.push imm), by simp only [placed, ok_bind], described⟩

/-! ## Closing a batch -/

theorem finalizeTimes_represents (count : Nat) (describes : Describes acc ops)
    (room : acc.nextGroupIdx + count ≤ 8) :
    ∃ next, (finalizeTimes count acc : Outcome ε OpBatchAccumulator) = ok next ∧
      Describes next ops ∧ next.nextGroupIdx = acc.nextGroupIdx + count := by
  induction count generalizing acc with
  | zero => exact ⟨acc, rfl, describes, rfl⟩
  | succ count ih =>
    rcases describes with ⟨closed, current, rep, rfl⟩
    obtain ⟨moved, run, movedRep, movedNext⟩ := @finalizeOpGroup_represents ε _ _ _ rep (by omega)
    obtain ⟨next, runs, described, nextIdx⟩ :=
      ih ⟨_, _, movedRep, (append_nil _).trans rep.close⟩ (by omega)
    exact ⟨next, by rw [finalizeTimes, run, ok_bind, runs], described, by omega⟩

/-- A sealed accumulator, with the tail of `indptr` filled, is the batch of
its groups. -/
theorem Sealed.toBatch (sealed : Sealed acc closed) (fits : (layoutSlots closed).length ≤ 8) :
    ({ ops := acc.ops
       indptr := OpBatchAccumulator.fillTail acc.indptr acc.nextGroupIdx acc.ops.length
       padding := acc.padding
       groups := acc.groups
       numGroups := acc.nextGroupIdx } : OpBatch) = BatchLayout.toBatch ⟨closed, fits⟩ := by
  have indptr : OpBatchAccumulator.fillTail acc.indptr acc.nextGroupIdx acc.ops.length =
      (BatchLayout.toBatch ⟨closed, fits⟩).indptr := by
    ext index bound
    simp only [OpBatchAccumulator.fillTail, BatchLayout.toBatch, Vector.getElem_ofFn,
      Fin.getElem_fin, BatchLayout.parts, BatchLayout.slots]
    rw [sealed.nextGroupIdx, sealed.indptr index bound, sealed.ops]
    split
    · exact (Segments.offset_of_length_le (by rwa [length_map])).symm
    · rw [if_pos (by omega)]
  have padding : acc.padding = (BatchLayout.toBatch ⟨closed, fits⟩).padding := by
    ext index bound
    simp only [BatchLayout.toBatch, Vector.getElem_ofFn]
    exact sealed.padding index bound
  have groups : acc.groups = (BatchLayout.toBatch ⟨closed, fits⟩).groups := by
    ext index bound
    simp only [BatchLayout.toBatch, Vector.getElem_ofFn]
    exact sealed.groups index bound
  rw [indptr, padding, groups, sealed.ops, sealed.nextGroupIdx]
  rfl

theorem Describes.nextPowerOfTwo_bounds (describes : Describes acc ops) :
    acc.nextGroupIdx ≤ nextPowerOfTwo acc.nextGroupIdx ∧ nextPowerOfTwo acc.nextGroupIdx ≤ 8 ∧
      isPowerOfTwo (nextPowerOfTwo acc.nextGroupIdx) = true := by
  have table : forall small : Fin 9, 1 ≤ small.val -> small.val ≤ nextPowerOfTwo small.val ∧
      nextPowerOfTwo small.val ≤ 8 ∧ isPowerOfTwo (nextPowerOfTwo small.val) = true := by
    decide
  rcases describes with ⟨_, _, rep, _⟩
  exact table ⟨acc.nextGroupIdx, Nat.lt_succ_of_le rep.fits⟩ (by dsimp only; rw [rep.nextGroupIdx]; omega)

/-- `into_batch` returns the batch of a layout that accounts for the same
operations and has a power of two of slots. -/
theorem intoBatch_represents (describes : Describes acc ops) :
    ∃ layout : BatchLayout, (acc.intoBatch : Outcome ε OpBatch) = ok layout.toBatch ∧
      layout.groups.flatMap OpGroup.rawOps = ops ∧
      layout.slots.length = nextPowerOfTwo acc.nextGroupIdx := by
  obtain ⟨lower, upper, -⟩ := describes.nextPowerOfTwo_bounds
  obtain ⟨last, runs, ⟨closed', current', lastRep, described⟩, lastNext⟩ :=
    @finalizeTimes_represents ε _ _ (nextPowerOfTwo acc.nextGroupIdx - acc.nextGroupIdx) describes
      (by omega)
  have inRange := lastRep.groupIdx_lt
  obtain ⟨groups, written, values⟩ : ∃ groups,
      (if last.group ≠ 0 ∨ last.opIdx ≠ 0
        then writeAt last.groups last.groupIdx (newUnchecked last.group)
        else ok last.groups : Outcome ε (Vector Felt 8)) = ok groups ∧
      forall index (bound : index < 8), groups[index] =
        if index = last.groupIdx then newUnchecked (packFrom 0 0 current')
        else last.groups[index] := by
    by_cases some : last.group ≠ 0 ∨ last.opIdx ≠ 0
    · refine ⟨_, by rw [if_pos some, writeAt_of_lt _ _ inRange], fun index bound => ?_⟩
      rw [Vector.getElem_set, lastRep.group]
      simp only [eq_comm]
    · -- an untouched open group keeps its blank slot, which is also its packing
      refine ⟨last.groups, if_neg some, fun index bound => ?_⟩
      rw [not_or, not_not, not_not, lastRep.opIdx, length_eq_zero_iff] at some
      split
      · rename_i same
        rw [lastRep.groups index bound, some.2, same, lastRep.groupIdx]
        simp [slotValue, openSlots, immediate, packFrom, newUnchecked]
      · rfl
  obtain ⟨padded, run, ops, -, indptr, sameGroups, groupIdx, nextGroupIdx, padding⟩ :=
    @padIfNeeded_eq ε { last with groups } _ _ lastRep.ops lastRep.opIdx lastRep.group inRange
  obtain ⟨final, sealRun, sealed⟩ := @finalizeIndptr_sealed ε _ _ _ padded lastRep ops indptr
    groupIdx nextGroupIdx
    (fun index bound => by simp only [sameGroups]; exact values index bound) padding
  have count := length_layoutSlots_close lastRep
  have fits : (layoutSlots (closed' ++ [closeGroup current' lastRep.closable])).length ≤ 8 := by
    omega
  refine ⟨⟨_, fits⟩, ?_, ?_, ?_⟩
  · unfold intoBatch
    simp only [runs, ok_bind, written, run, sealRun]
    rw [sealed.toBatch fits]
  · exact lastRep.close.trans described
  · change (layoutSlots (closed' ++ [closeGroup current' lastRep.closable])).length = _
    omega

/-! ## The whole fold -/

/-- After some operations `batch_ops` holds full batches, each the batch of a
layout, and an accumulator for the rest. -/
structure BatchingState (state : List OpBatch × OpBatchAccumulator) (done : List Operation)
    (layouts : List BatchLayout) (rest : List Operation) : Prop where
  batches : state.1 = layouts.map BatchLayout.toBatch
  full : forall layout, layout ∈ layouts -> layout.slots.length = 8
  describes : Describes state.2 rest
  ops : layouts.flatMap (fun layout => layout.groups.flatMap OpGroup.rawOps) ++ rest = done
  started : done ≠ [] -> state.2.isEmpty = false

/-- A fresh accumulator accepts every operation. -/
theorem canAcceptOp_new (op : Operation) : new.canAcceptOp op = true := by
  unfold canAcceptOp
  cases op.immValue <;> rfl

/-- An accumulator that cannot take an operation has at most one free group. -/
theorem full_of_not_accepts (describes : Describes acc ops) (refuses : acc.canAcceptOp op = false) :
    nextPowerOfTwo acc.nextGroupIdx = 8 := by
  rcases describes with ⟨_, _, rep, _⟩
  have fits := rep.fits
  have nearlyFull : 7 ≤ acc.nextGroupIdx := by
    unfold canAcceptOp groupSize batchSize at refuses
    cases present : op.immValue with
    | none =>
      simp [present] at refuses
      omega
    | some imm =>
      simp only [present, Option.isSome_some, if_true] at refuses
      split at refuses <;> have := of_decide_eq_false refuses <;> omega
  rcases lt_or_ge acc.nextGroupIdx 8 with below | above
  · rw [show acc.nextGroupIdx = 7 by omega]
    decide
  · rw [show acc.nextGroupIdx = 8 by omega]
    decide

theorem isEmpty_of_described (describes : Describes acc ops)
    (some : ops ≠ []) : acc.isEmpty = false := by
  rcases describes with ⟨closed, current, rep, rfl⟩
  rw [OpBatchAccumulator.isEmpty, isEmpty_eq_false_iff, rep.ops]
  intro none
  obtain ⟨noSlots, noCurrent⟩ := append_eq_nil_iff.mp none
  apply some
  cases closed with
  | nil => rw [noCurrent]; rfl
  | cons head tail =>
    rw [flatten_eq_nil_iff] at noSlots
    exact absurd (noSlots head.ops (mem_map.mpr ⟨head.opSlot, by
      rw [layoutSlots_cons]
      exact mem_append_left _ mem_cons_self, rfl⟩)) head.nonempty

/-- One iteration of the loop keeps the invariant. -/
theorem batchStep_keeps {state : List OpBatch × OpBatchAccumulator} {done rest : List Operation}
    {layouts : List BatchLayout} (inv : BatchingState state done layouts rest) (op : Operation) :
    ∃ next, (batchStep state op : Outcome ε (List OpBatch × OpBatchAccumulator)) = ok next ∧
      ∃ layouts' rest', BatchingState next (done ++ [op]) layouts' rest' := by
  unfold batchStep
  cases accepts : state.2.canAcceptOp op with
  | true =>
    obtain ⟨next, run, described⟩ := @addOp_represents ε _ op _ inv.describes accepts
    refine ⟨(state.1, next), by simp [run], layouts, rest ++ [op], inv.batches, inv.full, described, ?_,
      fun _ => isEmpty_of_described described (by simp)⟩
    rw [← append_assoc, inv.ops]
  | false =>
    obtain ⟨layout, closeRun, layoutOps, width⟩ := @intoBatch_represents ε _ _ inv.describes
    obtain ⟨next, run, described⟩ :=
      @addOp_represents ε _ op _ ⟨[], [], new_represents, rfl⟩ (canAcceptOp_new op)
    refine ⟨(state.1 ++ [layout.toBatch], next), by simp [closeRun, run], layouts ++ [layout], [op],
      by simp [inv.batches], ?_, described, ?_, fun _ => isEmpty_of_described described (by simp)⟩
    · intro other member
      rcases mem_append.mp member with old | new
      · exact inv.full other old
      · rw [mem_singleton.mp new, width, full_of_not_accepts inv.describes accepts]
    · rw [flatMap_append, flatMap_singleton, layoutOps, inv.ops]

/-- `batch_ops` returns the batches of layouts that are all full except for
the last, and whose raw operations are the input. -/
theorem batchOps_layouts (ops : List Operation) :
    ∃ layouts : List BatchLayout,
      (batchOps ops : Outcome ε (List OpBatch)) = ok (layouts.map toBatch) ∧
      layouts.flatMap (fun layout => layout.groups.flatMap OpGroup.rawOps) = ops ∧
      ∃ full last, layouts = full ++ last ∧ (forall layout, layout ∈ full ->
        layout.slots.length = 8) ∧ last.length ≤ 1 ∧
        forall layout, layout ∈ last -> isPowerOfTwo layout.slots.length = true := by
  have start : BatchingState ([], new) [] [] [] :=
    ⟨rfl, by simp, ⟨[], [], new_represents, rfl⟩, rfl, fun absurdity => absurd rfl absurdity⟩
  obtain ⟨⟨batches, acc⟩, run, full, rest, inv⟩ := @foldlM_returns ε _ _ batchStep ops
    (fun count state => ∃ layouts rest, BatchingState state (ops.take count) layouts rest) (by
      rintro index op state found ⟨layouts, rest, inv⟩
      rw [take_add_one, found]
      exact batchStep_keeps inv op) _ ⟨[], [], start⟩
  rw [take_length] at inv
  obtain rfl : batches = full.map toBatch := inv.batches
  unfold batchOps
  rw [run, ok_bind]
  cases empty : acc.isEmpty with
  | true =>
    have noOps : ops = [] := by
      by_contra some
      exact Bool.noConfusion (empty.symm.trans (inv.started some))
    refine ⟨full, by simp [empty], ?_, full, [], by simp, inv.full, by simp, by simp⟩
    have split := inv.ops
    rw [noOps] at split ⊢
    exact (append_eq_nil_iff.mp split).1
  | false =>
    obtain ⟨layout, closeRun, layoutOps, width⟩ := @intoBatch_represents ε _ _ inv.describes
    refine ⟨full ++ [layout], ?_, ?_, full, [layout], rfl, inv.full, le_refl 1, ?_⟩
    · simp [empty, closeRun]
    · rw [flatMap_append, flatMap_singleton, layoutOps, inv.ops]
    · intro other member
      rw [mem_singleton.mp member, width]
      exact inv.describes.nextPowerOfTwo_bounds.2.2

/-- Batches of full layouts, followed by at most one whose number of slots is
a power of two, are valid. -/
theorem validBatches_of_layouts {full last : List BatchLayout}
    (eight : forall layout, layout ∈ full -> layout.slots.length = 8) (atMostOne : last.length ≤ 1)
    (power : forall layout, layout ∈ last -> isPowerOfTwo layout.slots.length = true) :
    ValidBatches ((full ++ last).map toBatch) := by
  have locate : forall batchIdx batch,
      ((full ++ last).map toBatch)[batchIdx]? = some batch ->
      ∃ layout : BatchLayout, batch = layout.toBatch ∧
        ((batchIdx < full.length ∧ layout ∈ full) ∨ (full.length ≤ batchIdx ∧ layout ∈ last)) := by
    intro batchIdx batch found
    rw [getElem?_map, Option.map_eq_some_iff] at found
    obtain ⟨layout, found, rfl⟩ := found
    refine ⟨layout, rfl, ?_⟩
    rcases lt_or_ge batchIdx full.length with below | above
    · rw [getElem?_append_left below] at found
      exact .inl ⟨below, mem_of_getElem? found⟩
    · rw [getElem?_append_right above] at found
      exact .inr ⟨above, mem_of_getElem? found⟩
  refine ⟨fun batchIdx batch found notLast => ?_, fun batchIdx batch found isLast => ?_,
    fun batch member => ?_⟩
  · obtain ⟨layout, rfl, ⟨-, inFull⟩ | ⟨above, -⟩⟩ := locate batchIdx batch found
    · exact eight layout inFull
    · simp only [length_map, length_append] at notLast
      omega
  · obtain ⟨layout, rfl, ⟨-, inFull⟩ | ⟨-, inLast⟩⟩ := locate batchIdx batch found
    · change isPowerOfTwo layout.slots.length = true
      rw [eight layout inFull]
      decide
    · exact power layout inLast
  · obtain ⟨layout, -, rfl⟩ := mem_map.mp member
    exact toBatch_valid

/-- `batch_ops` never aborts, loses nothing, and its batches pass the
validation: the groups are placed as the batch documentation says. -/
theorem batchOps_correct {ε : Type} (ops : List Operation) (nonempty : ops ≠ []) :
    ∃ batches, (batchOps ops : Outcome ε (List OpBatch)) = ok batches ∧ batches ≠ [] ∧
      (concatMap batches OpBatch.rawOps : Outcome ε (List Operation)) = ok ops ∧
      validateBatchInvariants batches = ok () ∧
      (forall batchIdx batch, batches[batchIdx]? = some batch ->
        (batchIdx + 1 < batches.length -> batch.numGroups = 8) ∧
        (batchIdx + 1 = batches.length -> isPowerOfTwo batch.numGroups = true)) ∧
      (forall batch, batch ∈ batches -> forall groupIdx, groupIdx < batch.numGroups ->
        WellPlacedGroup batch groupIdx) := by
  obtain ⟨layouts, run, rawOps, full, last, rfl, eight, atMostOne, power⟩ := @batchOps_layouts ε ops
  have valid := validBatches_of_layouts eight atMostOne power
  refine ⟨_, run, ?_, ?_, validateBatchInvariants_eq_ok.mpr valid,
    fun batchIdx batch found => ⟨valid.full batchIdx batch found, fun isLast =>
      valid.powerOfTwo batchIdx batch found (by omega)⟩,
    fun batch member groupIdx inRange => (valid.each batch member).wellPlaced inRange⟩
  · intro none
    rw [map_eq_nil_iff] at none
    rw [none] at rawOps
    exact nonempty rawOps.symm
  · have perBatch : forall layout : BatchLayout,
        (layout.toBatch.rawOps : Outcome ε (List Operation)) =
          ok (layout.groups.flatMap OpGroup.rawOps) := fun layout => toBatch_rawOps
    rw [concatMap_map, concatMap_eq_ok_flatMap _ (fun layout _ => perBatch layout), rawOps]

/-- The hypotheses are satisfiable: a block of two operations. -/
theorem batchOps_correct_two : [Operation.push 7, Operation.add] ≠ [] ∧
    ∃ batches, (batchOps [Operation.push 7, Operation.add] : Outcome Unit (List OpBatch)) =
      ok batches ∧ validateBatchInvariants batches = ok () := by
  obtain ⟨batches, run, -, -, valid, -, -⟩ := @batchOps_correct Unit [push 7, add] (by decide)
  exact ⟨by decide, batches, run, valid⟩

end MidenVm.Mast
