import MidenVm.Foundation.Segments
import MidenVm.Mast.BatchSpec

namespace MidenVm.Mast

open Foundation Outcome
open List hiding Vector

/-!
# The layout a batch stands for

The four arrays of a batch are one list of slots read column by column.  A
slot is either a group of operations or a single immediate, and the
immediates of a group's pushes stand right behind the group.  A layout is
therefore just a list of operation groups: the slots, and with them the whole
batch, are computed from it.  `BatchLayout.toBatch_valid` shows that the batch
of any layout passes the validation; nothing about the accumulator is needed
for that.
-/

variable {index : Nat}

/-- An operation group as a closed batch holds it. -/
structure OpGroup where
  ops : List Operation
  padded : Bool
  nonempty : ops ≠ []
  length_le : ops.length ≤ 9
  ending : ops.getLast?.bind Operation.immValue = none
  padding : padded = true -> ops.getLast? = some Operation.noop

/-- One column of the arrays of a batch. -/
structure Slot where
  ops : List Operation
  padded : Bool
  value : Felt

namespace Slot

/-- The operations of the slot without a padding NOOP. -/
def rawOps (slot : Slot) : List Operation :=
  if slot.padded then slot.ops.dropLast else slot.ops

/-- A slot that holds an immediate and no operations. -/
def immediate (value : Felt) : Slot := ⟨[], false, value⟩

end Slot

namespace OpGroup

variable (group : OpGroup)

/-- The slot of the operations themselves. -/
def opSlot : Slot := ⟨group.ops, group.padded, Felt.newUnchecked (packFrom 0 0 group.ops)⟩

def slots : List Slot := group.opSlot :: (immediates group.ops).map Slot.immediate

/-- The operations without the padding NOOP. -/
def rawOps : List Operation :=
  if group.padded then group.ops.dropLast else group.ops

end OpGroup

/-- The slots of a list of groups, one after another. -/
def layoutSlots (groups : List OpGroup) : List Slot := groups.flatMap OpGroup.slots

@[simp] theorem layoutSlots_nil : layoutSlots [] = [] := rfl

theorem layoutSlots_append (front back : List OpGroup) :
    layoutSlots (front ++ back) = layoutSlots front ++ layoutSlots back :=
  flatMap_append

theorem layoutSlots_cons (head : OpGroup) (tail : List OpGroup) :
    layoutSlots (head :: tail) = head.slots ++ layoutSlots tail := rfl

variable {slot : Slot}

/-- A slot is the operation slot of some group, with that group's immediates
behind it, or it is an immediate behind its owner. -/
theorem layoutSlots_cases {groups : List OpGroup}
    (found : (layoutSlots groups)[index]? = some slot) : (∃ group ∈ groups, slot = group.opSlot ∧
      forall j value, (immediates group.ops)[j]? = some value ->
        (layoutSlots groups)[index + 1 + j]? = some (Slot.immediate value)) ∨
    (∃ group ∈ groups, ∃ owner value, owner < index ∧
      index ≤ owner + (immediates group.ops).length ∧
      (layoutSlots groups)[owner]? = some group.opSlot ∧ slot = Slot.immediate value) := by
  induction groups generalizing index with
  | nil => simp at found
  | cons head tail ih =>
    have width : head.slots.length = (immediates head.ops).length + 1 := by simp [OpGroup.slots]
    rw [layoutSlots_cons] at found ⊢
    by_cases here : index < head.slots.length
    · rw [getElem?_append_left here] at found
      cases index with
      | zero =>
        refine .inl ⟨head, mem_cons_self, (Option.some.inj found).symm, ?_⟩
        intro j value atJ
        have bound := (List.getElem?_eq_some_iff.mp atJ).1
        rw [getElem?_append_left (by omega), zero_add, add_comm]
        simp [OpGroup.slots, atJ]
      | succ index =>
        obtain ⟨value, -, same⟩ : ∃ value, (immediates head.ops)[index]? = some value ∧
            Slot.immediate value = slot := by
          simpa [OpGroup.slots, Option.map_eq_some_iff] using found
        exact .inr ⟨head, mem_cons_self, 0, value, by omega, by omega, rfl, same.symm⟩
    · rw [getElem?_append_right (by omega)] at found
      rcases ih found with ⟨group, member, same, behind⟩ | ⟨group, member, owner, value, before,
          reach, atOwner, same⟩
      · refine .inl ⟨group, mem_cons_of_mem head member, same, fun j value atJ => ?_⟩
        rw [getElem?_append_right (by omega), ← behind j value atJ]
        congr 1
        omega
      · refine .inr ⟨group, mem_cons_of_mem head member, owner + head.slots.length, value,
          by omega, by omega, ?_, same⟩
        rw [getElem?_append_right (by omega), Nat.add_sub_cancel, atOwner]

/-- Visiting a list through its indices visits its elements. -/
theorem flatMap_range_getD {α β : Type} (items : List α) (f : α -> List β) :
    (List.range items.length).flatMap (fun index => (items[index]?.map f).getD []) =
      items.flatMap f := by
  induction items with
  | nil => rfl
  | cons head tail ih => simp [range_succ_eq_map, flatMap_map, ih]

/-- A list of groups whose slots fit into one batch. -/
structure BatchLayout where
  groups : List OpGroup
  fits : (layoutSlots groups).length ≤ 8

namespace BatchLayout

def slots (layout : BatchLayout) : List Slot := layoutSlots layout.groups

def parts (layout : BatchLayout) : List (List Operation) := layout.slots.map Slot.ops

/-- The batch a layout stands for. -/
def toBatch (layout : BatchLayout) : OpBatch where
  ops := layout.parts.flatten
  indptr := Vector.ofFn (fun index => Segments.offset layout.parts index.val)
  padding := Vector.ofFn (fun index => (layout.slots[index.val]?.map Slot.padded).getD false)
  groups := Vector.ofFn (fun index => (layout.slots[index.val]?.map Slot.value).getD 0)
  numGroups := layout.slots.length

variable (layout : BatchLayout)

theorem toBatch_indptrAt (inRange : index < 9) :
    layout.toBatch.indptrAt index = Segments.offset layout.parts index := by
  simp [OpBatch.indptrAt, toBatch, inRange]

theorem toBatch_groupOps (inRange : index < 8) :
    layout.toBatch.groupOps index = layout.parts.getD index [] := by
  rw [OpBatch.groupOps, layout.toBatch_indptrAt (by omega), layout.toBatch_indptrAt (by omega)]
  exact Segments.slice_eq_part layout.parts index

variable {layout}

/-- Reading the batch at the index of a slot gives back the slot. -/
theorem toBatch_at (found : layout.slots[index]? = some slot) :
    layout.toBatch.groupOps index = slot.ops ∧ layout.toBatch.paddingAt index = slot.padded ∧
      layout.toBatch.groupAt index = slot.value := by
  have inSlots := (List.getElem?_eq_some_iff.mp found).1
  have inRange : index < 8 := lt_of_lt_of_le inSlots layout.fits
  refine ⟨?_, ?_, ?_⟩
  · rw [layout.toBatch_groupOps inRange]
    simp [parts, found]
  · simp [OpBatch.paddingAt, toBatch, inRange, found]
  · simp [OpBatch.groupAt, toBatch, inRange, found]

theorem exists_slot (inRange : index < layout.toBatch.numGroups) : ∃ slot, layout.slots[index]? = some slot :=
  ⟨_, getElem?_eq_getElem inRange⟩

theorem toBatch_structured : StructuredBatch layout.toBatch where
  numGroups_le := layout.fits
  monotone := fun index inRange => by
    rw [layout.toBatch_indptrAt (by omega), layout.toBatch_indptrAt (by omega)]
    exact Segments.offset_le_succ _ _
  final := by
    rw [layout.toBatch_indptrAt (by decide)]
    exact Segments.offset_of_length_le (by rw [parts, length_map]; exact layout.fits)
  size_le := fun index inRange => by
    obtain ⟨slot, found⟩ := exists_slot inRange
    have inBatch : index < 8 := lt_of_lt_of_le inRange layout.fits
    have part : layout.parts.getD index [] = slot.ops := by simp [parts, found]
    rw [layout.toBatch_indptrAt (by omega), layout.toBatch_indptrAt (by omega),
      Segments.offset_succ, Nat.add_sub_cancel_left, part]
    rcases layoutSlots_cases found with ⟨group, -, same, -⟩ | ⟨_, -, _, value, -, -, -, same⟩
    · exact same ▸ group.length_le
    · simp [same, Slot.immediate]

/-- Every batch of a layout passes the per-batch validation. -/
theorem toBatch_valid : ValidBatch layout.toBatch where
  toStructuredBatch := toBatch_structured
  endings := fun index inRange => by
    obtain ⟨slot, found⟩ := exists_slot inRange
    rw [EndsWithoutImmediate, (toBatch_at found).1]
    rcases layoutSlots_cases found with ⟨group, -, same, behind⟩ | ⟨_, -, _, value, -, -, -, same⟩
    · subst same
      split
      · -- a push in the last slot would need a slot behind it
        rename_i last
        cases pushes : immediates group.opSlot.ops with
        | nil => rfl
        | cons value rest =>
          have next := (List.getElem?_eq_some_iff.mp (behind 0 value (by
            rw [show group.ops = group.opSlot.ops from rfl, pushes]; rfl))).1
          have total : layout.toBatch.numGroups = (layoutSlots layout.groups).length := rfl
          omega
      · exact group.ending
    · simp [same, Slot.immediate]
  committed := fun index inRange => by
    obtain ⟨slot, found⟩ := exists_slot inRange
    obtain ⟨ops, -, value⟩ := toBatch_at found
    rcases layoutSlots_cases found with ⟨group, -, same, behind⟩ | ⟨_, -, _, imm, -, -, -, same⟩
    · refine ⟨fun _ => by rw [value, ops, same]; rfl, fun j imm atJ => ?_⟩
      rw [ops, same] at atJ
      have next := behind j imm atJ
      exact ⟨(List.getElem?_eq_some_iff.mp next).1, (toBatch_at next).1, (toBatch_at next).2.2⟩
    · have empty : layout.toBatch.groupOps index = [] := by rw [ops, same]; rfl
      exact ⟨fun nonempty => absurd empty nonempty, fun j imm atJ => by simp [empty] at atJ⟩
  emptyZero := fun index inRange empty => by
    obtain ⟨slot, found⟩ := exists_slot inRange
    rw [(toBatch_at found).1] at empty
    rcases layoutSlots_cases found with
      ⟨group, -, same, -⟩ | ⟨group, -, owner, _, before, reach, atOwner, -⟩
    · subst same
      exact absurd empty group.nonempty
    · refine .inl ⟨owner, before, ?_⟩
      rw [(toBatch_at atOwner).1]
      exact reach
  padded := fun index inRange flagged => by
    obtain ⟨slot, found⟩ := exists_slot inRange
    obtain ⟨ops, padded, -⟩ := toBatch_at found
    rw [padded] at flagged
    rw [ops]
    rcases layoutSlots_cases found with ⟨group, -, same, -⟩ | ⟨_, -, _, value, -, -, -, same⟩
    · subst same
      exact group.padding flagged
    · simp [same, Slot.immediate] at flagged

/-- The raw operations of the batch are those of the groups, in order. -/
theorem toBatch_rawOps {ε : Type} :
    (layout.toBatch.rawOps : Outcome ε (List Operation)) =
      ok (layout.groups.flatMap OpGroup.rawOps) := by
  rw [toBatch_valid.rawOps_eq]
  have perSlot : forall index, index ∈ List.range layout.slots.length ->
      layout.toBatch.rawGroupOps index = (layout.slots[index]?.map Slot.rawOps).getD [] := by
    intro index member
    obtain ⟨slot, found⟩ := exists_slot (mem_range.mp member)
    obtain ⟨ops, padded, -⟩ := toBatch_at found
    rw [OpBatch.rawGroupOps, ops, padded, found]
    rfl
  have perGroup : forall group : OpGroup, group.slots.flatMap Slot.rawOps = group.rawOps := by
    intro group
    simp [OpGroup.slots, OpGroup.opSlot, OpGroup.rawOps, Slot.rawOps, Slot.immediate, flatMap_map]
  have total : layout.toBatch.numGroups = layout.slots.length := rfl
  rw [total, flatMap_congr perSlot, flatMap_range_getD, slots, layoutSlots, flatMap_assoc]
  simp only [perGroup]

end BatchLayout

end MidenVm.Mast
