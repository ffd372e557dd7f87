import MidenVm.Air.Selectors

namespace MidenVm.Air

open Foundation Foundation.Air

/-!
# Hasher controller

The controller records permutations as pairs of an input row and an output
row.  An operation is a run of pairs.  A Merkle operation has one pair for each
level of the tree: the input row holds the current node and its sibling in the
order the direction bit says, and the output row holds the digest of both.
-/

variable {F : Type} [Field F] (frame : AirFrame F (ChipletCols F)) (chiplet : ChipletFlags F)

/-- `ControllerFlags`. -/
structure ControllerFlags (F : Type) where
  isInput : F
  isOutput : F
  isPadding : F
  isSpongeInput : F
  isMerkleInput : F
  isHout : F
  isSout : F
  isOutputNext : F
  isPaddingNext : F
  isSpongeInputNext : F
  isMerkleInputNext : F
  isMvInputNext : F

/-- `ControllerFlags::new`. -/
def ControllerFlags.new (cols next : ControllerCols F) : ControllerFlags F where
  isInput := cols.s0
  isOutput := (1 - cols.s0) * (1 - cols.s1)
  isPadding := (1 - cols.s0) * cols.s1
  isSpongeInput := cols.s0 * (1 - cols.s1) * (1 - cols.s2)
  isMerkleInput := cols.s0 * (cols.s1 + cols.s2 - cols.s1 * cols.s2)
  isHout := (1 - cols.s0) * (1 - cols.s1) * (1 - cols.s2)
  isSout := (1 - cols.s0) * (1 - cols.s1) * cols.s2
  isOutputNext := (1 - next.s0) * (1 - next.s1)
  isPaddingNext := (1 - next.s0) * next.s1
  isSpongeInputNext := next.s0 * (1 - next.s1) * (1 - next.s2)
  isMerkleInputNext := next.s0 * (next.s1 + next.s2 - next.s1 * next.s2)
  isMvInputNext := next.s0 * next.s1 * (1 - next.s2)

/-- `MAX_MERKLE_INDEX_HALF`. -/
def maxMerkleIndexHalf : Nat := (modulus - 1) / 2

/-- One assertion for each of the four columns of a word. -/
def forWord (constraint : Fin 4 -> List F) : List F := (List.finRange 4).flatMap constraint

/-- The constraints on the order of rows, for any operation. -/
def controllerSkeleton : List F :=
  let cols := frame.current.controller
  let next := frame.next.controller
  let rows := ControllerFlags.new cols next
  when frame.isFirstRow (assertOne (chiplet.isActive * rows.isInput)) ++
    when chiplet.isActive (assertBool cols.s0 ++ assertBool cols.s1 ++ assertBool cols.s2) ++
    when chiplet.isActive (assertBool cols.isBoundary) ++
    when chiplet.isTransition (when rows.isOutput (assertZero rows.isOutputNext)) ++
    when chiplet.isTransition (when rows.isPadding (assertOne rows.isPaddingNext)) ++
    when chiplet.isActive (when rows.isPadding (
      assertZero cols.isBoundary ++ assertZero cols.directionBit ++ assertZero cols.permId)) ++
    when chiplet.isLast (assertZero rows.isInput) ++
    when chiplet.isLast (when rows.isOutput (assertOne cols.isBoundary)) ++
    when chiplet.isTransition (when rows.isInput (assertOne rows.isOutputNext)) ++
    when chiplet.isTransition (when rows.isInput (assertEq next.permId cols.permId))

/-- The constraints of sponge operations. -/
def controllerSponge : List F :=
  let cols := frame.current.controller
  let next := frame.next.controller
  let rows := ControllerFlags.new cols next
  when chiplet.isActive (when rows.isSpongeInput (
      assertZero cols.nodeIndex ++ assertZero cols.directionBit)) ++
    when (chiplet.isTransition * rows.isSpongeInputNext * (1 - next.isBoundary)) (
      forWord (fun lane => assertEq (next.capacity.get lane) (cols.capacity.get lane)))

/-- The slack of the first level, which is spread over the capacity columns. -/
def indexSlack (cols : ControllerCols F) : F :=
  cols.capacity.get 0 + cols.capacity.get 1 * 2 ^ 16 + cols.capacity.get 2 * 2 ^ 32 + cols.capacity.get 3 * 2 ^ 48

/-- The constraints of Merkle operations. -/
def controllerMerkle : List F :=
  let cols := frame.current.controller
  let next := frame.next.controller
  let rows := ControllerFlags.new cols next
  when (chiplet.isActive * rows.isMerkleInput) (
      assertEq cols.nodeIndex (2 * next.nodeIndex + cols.directionBit) ++
      assertBool cols.directionBit) ++
    when (chiplet.isActive * rows.isMerkleInput * cols.isBoundary) (
      assertEq (next.nodeIndex + indexSlack cols + cols.directionBit)
        ((maxMerkleIndexHalf : Nat) : F)) ++
    when (chiplet.isActive * rows.isMerkleInput * (1 - cols.isBoundary)) (
      forWord (fun lane => assertZero (cols.capacity.get lane))) ++
    when chiplet.isActive (when rows.isOutput (when (1 - cols.isBoundary) (
      when rows.isMerkleInputNext (assertEq next.nodeIndex cols.nodeIndex)))) ++
    when (chiplet.isActive * rows.isOutput * (1 - cols.isBoundary) * rows.isMerkleInputNext) (
      assertEq cols.directionBit next.directionBit ++
      forWord (fun lane => assertEq (cols.rate0.get lane)
        (next.rate0.get lane + cols.directionBit * (next.rate1.get lane - next.rate0.get lane)))) ++
    when chiplet.isTransition (
      assertEq next.mrupdateId (cols.mrupdateId + rows.isMvInputNext * next.isBoundary))

/-- The constraints on the rows that return a value. -/
def controllerEnd : List F :=
  let cols := frame.current.controller
  let rows := ControllerFlags.new cols frame.next.controller
  when chiplet.isActive (when rows.isHout (
      assertZero cols.nodeIndex ++ assertZero cols.directionBit)) ++
    when chiplet.isActive (when rows.isSout (when cols.isBoundary (assertZero cols.directionBit)))

/-- `enforce_controller_constraints`. -/
def enforceControllerConstraints : List F :=
  controllerSkeleton frame chiplet ++ controllerSponge frame chiplet ++
    controllerMerkle frame chiplet ++ controllerEnd frame chiplet

end MidenVm.Air
