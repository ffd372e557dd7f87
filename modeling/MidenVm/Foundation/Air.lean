import MidenVm.Foundation.Numerals

namespace Foundation

open List

/-!
# Algebraic constraints on a trace

A trace is a list of rows over a field.  A constraint system reads a row
together with the row behind it (the first row stands behind the last one) and
lists the values that have to be zero.  Conditions multiply what they guard,
so that a guarded constraint says nothing where its condition is zero.

The lemmas below turn a list of values into the statements it makes, one for
each way a constraint is written.
-/

variable {index : Nat}

/-- A row, the next one, and the position of the row in the trace. -/
structure AirFrame (F ρ : Type) where
  current : ρ
  next : ρ
  isFirstRow : F
  isLastRow : F
  isTransition : F

namespace Air

variable {F : Type} [Field F]

/-! ## Writing constraints -/

variable {value : F}

def assertZero (value : F) : List F := [value]

def assertOne (value : F) : List F := [value - 1]

def assertEq (left right : F) : List F := [left - right]

def assertBool (value : F) : List F := [value * (value - 1)]

/-- Constraints that count only where the condition is not zero. -/
def when (condition : F) (constraints : List F) : List F :=
  constraints.map (fun value => condition * value)

/-! ## Reading constraints -/

/-- Every listed value is zero. -/
def Vanish (constraints : List F) : Prop := forall value, value ∈ constraints -> value = 0

@[simp] theorem vanish_nil : Vanish ([] : List F) := fun _ impossible => by cases impossible

@[simp] theorem vanish_append {front back : List F} : Vanish (front ++ back) ↔ Vanish front ∧ Vanish back :=
  forall_mem_append

@[simp] theorem vanish_assertZero : Vanish (assertZero value) ↔ value = 0 := by
  simp [Vanish, assertZero]

@[simp] theorem vanish_assertOne : Vanish (assertOne value) ↔ value = 1 := by
  simp [Vanish, assertOne, sub_eq_zero]

@[simp] theorem vanish_assertEq {left right : F} : Vanish (assertEq left right) ↔ left = right := by
  simp [Vanish, assertEq, sub_eq_zero]

@[simp] theorem vanish_assertBool : Vanish (assertBool value) ↔ value = 0 ∨ value = 1 := by
  simp [Vanish, assertBool, sub_eq_zero]

@[simp] theorem vanish_when {condition : F} {constraints : List F} :
    Vanish (when condition constraints) ↔ (condition ≠ 0 -> Vanish constraints) := by
  unfold Vanish when
  constructor
  · intro guarded holds value member
    have product := guarded (condition * value) (mem_map.mpr ⟨value, member, rfl⟩)
    exact (mul_eq_zero.mp product).resolve_left holds
  · intro guarded value member
    rcases mem_map.mp member with ⟨inner, listed, rfl⟩
    by_cases zero : condition = 0
    · rw [zero, zero_mul]
    · rw [guarded zero inner listed, mul_zero]

theorem vanish_flatMap {ι : Type} {items : List ι} {constraints : ι -> List F} :
    Vanish (items.flatMap constraints) ↔ forall item, item ∈ items ->
      Vanish (constraints item) := by
  unfold Vanish
  constructor
  · intro every item listed value member
    exact every value (mem_flatMap.mpr ⟨item, listed, member⟩)
  · intro every value member
    rcases mem_flatMap.mp member with ⟨item, listed, inner⟩
    exact every item listed value inner

/-! ## Traces -/

variable {ρ : Type}
variable {rows : List ρ}

/-- What a constraint system sees at a row. -/
def frameAt (rows : List ρ) (index : Nat) : Option (AirFrame F ρ) := do
  let current ← rows[index]?
  let next ← rows[(index + 1) % rows.length]?
  some {
    current
    next
    isFirstRow := if index = 0 then 1 else 0
    isLastRow := if index + 1 = rows.length then 1 else 0
    isTransition := if index + 1 = rows.length then 0 else 1 }

/-- A trace on which all constraints hold at all rows. -/
def Satisfies (constraints : AirFrame F ρ -> List F) (rows : List ρ) : Prop :=
  forall index frame, frameAt rows index = some frame -> Vanish (constraints frame)

/-- The frame at a row that is not the last one. -/
theorem frameAt_of_next {current next : ρ} (atRow : rows[index]? = some current)
    (atNext : rows[index + 1]? = some next) :
    (frameAt rows index : Option (AirFrame F ρ)) =
      some ⟨current, next, if index = 0 then 1 else 0, 0, 1⟩ := by
  have inside := (List.getElem?_eq_some_iff.mp atNext).1
  have notLast : index + 1 ≠ rows.length := ne_of_lt inside
  rw [frameAt, Nat.mod_eq_of_lt inside, atRow, atNext]
  simp [notLast]

/-- The frame at the last row, which sees the first row behind it. -/
theorem frameAt_last {current first : ρ} (atRow : rows[index]? = some current)
    (last : index + 1 = rows.length) (atFirst : rows[0]? = some first) :
    (frameAt rows index : Option (AirFrame F ρ)) =
      some ⟨current, first, if index = 0 then 1 else 0, 1, 0⟩ := by
  rw [frameAt, last, Nat.mod_self, atRow, atFirst]
  simp

/-- A row outside the trace has no frame. -/
theorem lt_of_frameAt {frame : AirFrame F ρ} (atFrame : frameAt rows index = some frame) :
    index < rows.length := by
  by_contra outside
  rw [frameAt, getElem?_eq_none (by omega)] at atFrame
  cases atFrame

/-- A row of a section, in the trace. -/
theorem getElem?_of_split {before inner after : List ρ} {row : ρ}
    (split : rows = before ++ inner ++ after)
    (found : inner[index]? = some row) : rows[before.length + index]? = some row := by
  have inside := (List.getElem?_eq_some_iff.mp found).1
  rw [split, append_assoc, getElem?_append_right (Nat.le_add_right _ _), Nat.add_sub_cancel_left,
    getElem?_append_left inside, found]

/-- The check of all rows of a given trace. -/
def check [DecidableEq F] (constraints : AirFrame F ρ -> List F) (rows : List ρ) : Bool :=
  (List.range rows.length).all (fun index =>
    (frameAt rows index).all (fun frame => (constraints frame).all (fun value => value = 0)))

/-! ## Periodic columns -/

/-- Constraints that read values which depend on the number of the row. -/
def SatisfiesAt (constraints : Nat -> AirFrame F ρ -> List F) (rows : List ρ) : Prop :=
  forall index frame, frameAt rows index = some frame -> Vanish (constraints index frame)

theorem satisfiesAt_of_check [DecidableEq F] {constraints : Nat -> AirFrame F ρ -> List F}
    (checked : forall index, index < rows.length -> (frameAt rows index).all (fun frame =>
      (constraints index frame).all (fun value => value = 0)) =
        true) : SatisfiesAt constraints rows := by
  intro index frame atFrame value member
  have atRow := checked index (lt_of_frameAt atFrame)
  rw [atFrame] at atRow
  exact of_decide_eq_true (all_eq_true.mp atRow value member)

theorem satisfies_of_check [DecidableEq F] {constraints : AirFrame F ρ -> List F}
    (checked : check constraints rows = true) : Satisfies constraints rows :=
  satisfiesAt_of_check (fun index inside => all_eq_true.mp checked index (mem_range.mpr inside))

end Air

end Foundation
