import MidenVm.Core.Goldilocks
import MidenVm.Core.QuadFelt
import MidenVm.Foundation.Outcome

namespace MidenVm.Processor

open Foundation

/-!
# The operand stack behind the operations

Operations see the stack through a small interface, which several processors
implement.  The operand stack below is the plainest one: a list of at least
sixteen elements, where dropping an element from a stack of sixteen pulls in a
zero from below.
-/

/-- The reasons of a `FriError`, by the values that their texts show. -/
inductive FriError where
  | cosetIndex (coset : Nat)
  | domainSizeZero
  | inconsistentProjection (coset rowIdx poe fpos : Nat) (expected actual : QuadFelt)
      (values : Fin 4 -> QuadFelt)
  deriving DecidableEq

/-- `OperationError`, the cases that the modelled operations report. -/
inductive OperationError where
  | divideByZero
  | u32AssertionFailed (errCode : Felt) (errMsg : Option String) (invalidValues : List Felt)
  | invalidStackDepthOnReturn (depth : Nat)
  | notU32Values (values : List Felt)
  | internal (reason : String)
  | friError (reason : FriError)
  deriving DecidableEq

/-- `ExecutionError`, the cases that the modelled operations report. -/
inductive ExecutionError where
  | operation (error : OperationError)
  | stackDepthLimitExceeded (depth max : Nat)
  deriving DecidableEq

/-- `StackInterface`, the part that arithmetic operations use. -/
class StackInterface (σ : Type) where
  get : σ -> Nat -> Felt
  set : σ -> Nat -> Felt -> σ
  incrementSize : σ -> Outcome ExecutionError σ
  decrementSize : σ -> Outcome OperationError σ

/-- `MIN_STACK_DEPTH`. -/
def minStackDepth : Nat := 16

/-- The elements of a stack, top first. -/
structure OperandStack where
  cells : List Felt
  deep : minStackDepth ≤ cells.length

namespace OperandStack

/-- A stack of sixteen elements. -/
def ofTop (top : Vector Felt 16) : OperandStack := ⟨top.toList, Nat.le_of_eq top.length_toList.symm⟩

/-- Room for one more element, which is written next. -/
def increment (stack : OperandStack) : OperandStack :=
  ⟨0 :: stack.cells, Nat.le_succ_of_le stack.deep⟩

/-- Remove the top; a stack of sixteen takes a zero from below. -/
def decrement (stack : OperandStack) : OperandStack :=
  if deeper : minStackDepth < stack.cells.length then
    ⟨stack.cells.tail, by rw [List.length_tail]; exact Nat.le_sub_one_of_lt deeper⟩
  else
    ⟨stack.cells.tail ++ [0], by
      rw [List.length_append, List.length_tail, List.length_singleton]
      exact Nat.le_trans stack.deep le_tsub_add⟩

instance : StackInterface OperandStack where
  get stack index := stack.cells.getD index 0
  set stack index value := ⟨stack.cells.set index value, by rw [List.length_set]; exact stack.deep⟩
  incrementSize stack := .ok stack.increment
  decrementSize stack := .ok stack.decrement

end OperandStack

end MidenVm.Processor
