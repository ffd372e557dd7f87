import MidenVm.Air.Selectors

namespace MidenVm.Air

open Foundation Foundation.Air

/-!
# Bitwise chiplet

An operation takes eight rows of four bits, the highest bits first.  Two
periodic columns say where a cycle of eight rows starts and ends.
-/

variable {F : Type} [Field F]

/-- `BitwisePeriodicCols`. -/
structure BitwisePeriodicCols (α : Type) where
  kFirst : α
  kTransition : α

def BitwisePeriodicCols.new : BitwisePeriodicCols (Vector F 8) where
  kFirst := #v[1, 0, 0, 0, 0, 0, 0, 0]
  kTransition := #v[1, 1, 1, 1, 1, 1, 1, 0]

/-- The periodic values of a row. -/
def BitwisePeriodicCols.row (index : Nat) : BitwisePeriodicCols F where
  kFirst := BitwisePeriodicCols.new.kFirst[index % 8]
  kTransition := BitwisePeriodicCols.new.kTransition[index % 8]

/-- `horner_eval_bits` of four bits. -/
def hornerEvalBits (limbs : Vector F 4) : F :=
  2 * (2 * (2 * limbs.get 3 + limbs.get 2) + limbs.get 1) + limbs.get 0

/-- `enforce_bitwise_constraints`. -/
def enforceBitwiseConstraints (periodic : BitwisePeriodicCols F)
    (frame : AirFrame F (ChipletCols F)) (flags : ChipletFlags F) : List F :=
  let cols := frame.current.bitwise
  let next := frame.next.bitwise
  let aAndBBits : Vector F 4 := Vector.ofFn (fun i => cols.aBits.get i * cols.bBits.get i)
  let aXorBBits : Vector F 4 :=
    Vector.ofFn (fun i => cols.aBits.get i + cols.bBits.get i - 2 * aAndBBits.get i)
  let aAndB := hornerEvalBits aAndBBits
  let aXorB := hornerEvalBits aXorBBits
  when flags.nextIsFirst (assertZero periodic.kTransition) ++
    when flags.isActive (
      assertBool cols.opFlag ++ when periodic.kTransition (assertEq cols.opFlag next.opFlag) ++
      (List.finRange 4).flatMap (fun i => assertBool (cols.aBits.get i)) ++
      (List.finRange 4).flatMap (fun i => assertBool (cols.bBits.get i)) ++
      when periodic.kFirst (assertEq cols.a (hornerEvalBits cols.aBits) ++
        assertEq cols.b (hornerEvalBits cols.bBits) ++ assertZero cols.prevOutput) ++
      when periodic.kTransition (assertEq next.a (cols.a * 16 + hornerEvalBits next.aBits) ++
        assertEq next.b (cols.b * 16 + hornerEvalBits next.bBits)) ++
      when periodic.kTransition (assertEq cols.output next.prevOutput) ++
      assertEq cols.output (cols.prevOutput * 16 + aAndB + cols.opFlag * (aXorB - aAndB)))

/-- The selectors and the bitwise chiplet, at a row of the trace. -/
def bitwiseTraceConstraints (index : Nat) (frame : AirFrame F (ChipletCols F)) : List F :=
  selectorConstraints frame ++
    enforceBitwiseConstraints (BitwisePeriodicCols.row index) frame (buildChipletSelectors frame).bitwise

/-! ## The rows of the processor -/

/-- `Op`. -/
inductive BitwiseOp where
  | and | xor
  deriving DecidableEq

/-- `Op::apply`. -/
def BitwiseOp.apply (op : BitwiseOp) (a b : Nat) : Nat :=
  match op with
  | and => a &&& b
  | xor => a ^^^ b

/-- `Op::selector`. -/
def BitwiseOp.selector : BitwiseOp -> Felt
  | and => 0
  | xor => 1

/-- The lowest four bits, as columns. -/
def bitColumns (value : Nat) : Vector Felt 4 :=
  Vector.ofFn (fun i => Felt.newUnchecked (value >>> i.val &&& 1))

/-- The loop of `Bitwise::fill_trace` over the bit offsets of one operation. -/
def BitwiseOp.fillRows (op : BitwiseOp) (a b : Nat) (prevOutput : Nat) : List Nat ->
    List (BitwiseCols Felt)
  | [] => []
  | bitOffset :: rest =>
    let aAcc := a >>> bitOffset
    let bAcc := b >>> bitOffset
    let result := prevOutput <<< 4 ||| op.apply aAcc bAcc &&& 15
    {
      opFlag := op.selector
      a := Felt.newUnchecked aAcc
      b := Felt.newUnchecked bAcc
      aBits := bitColumns aAcc
      bBits := bitColumns bAcc
      prevOutput := Felt.newUnchecked prevOutput
      output := Felt.newUnchecked result } :: op.fillRows a b result rest

/-- The eight rows `Bitwise::fill_trace` writes for one operation. -/
def BitwiseOp.fillCycle (op : BitwiseOp) (a b : Nat) : List (BitwiseCols Felt) :=
  op.fillRows a b 0 [28, 24, 20, 16, 12, 8, 4, 0]

end MidenVm.Air
