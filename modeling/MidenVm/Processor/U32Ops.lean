import MidenVm.Processor.StackInterface

namespace MidenVm.Processor

open Foundation StackInterface

/-!
# Operations on 32-bit integers

Each operation checks its operands, computes on canonical integers and writes
the results to the top of the stack.  It returns the values from which the
trace fills the helper columns.
-/

/-- `U32_MAX`. -/
def u32Max : Nat := 2 ^ 32 - 1

/-- `OperationHelperRegisters`, for the 32-bit operations. -/
inductive OperationHelperRegisters where
  | u32Split (lo hi : Felt)
  | u32Add (sum carry : Felt)
  | u32Add3 (sum carry : Felt)
  | u32Sub (secondNew : Felt)
  | u32Mul (lo hi : Felt)
  | u32Madd (lo hi : Felt)
  | u32Div (quotient remainder remainderDiff : Felt)
  | u32Assert2 (first second : Felt)

/-- `split_element`: the high half and the low one. -/
def splitElement (value : Felt) : Felt × Felt :=
  let value := value.asCanonicalU64
  (.newUnchecked (value / 2 ^ 32), .newUnchecked (value % 2 ^ 32))

section Ops

variable {σ : Type} [StackInterface σ] (stack : σ)

/-- `require_u32_operands!`. -/
def requireU32Operands (indices : List Nat) : Outcome OperationError Unit :=
  let invalidValues := (indices.map (get stack)).filter (fun value => u32Max < value.asCanonicalU64)
  if invalidValues.isEmpty then .ok () else .err (.notU32Values invalidValues)

/-- Write the two results of an operation. -/
def setTwo (first second : Felt) : σ := set (set stack 0 first) 1 second

/-- `op_u32split`. -/
def opU32split : Outcome ExecutionError (σ × OperationHelperRegisters) := do
  let (topHi, topLo) := splitElement (get stack 0)
  let stack ← incrementSize stack
  pure (setTwo stack topLo topHi, .u32Split topLo topHi)

/-- `op_u32add`. -/
def opU32add : Outcome OperationError (σ × OperationHelperRegisters) := do
  requireU32Operands stack [0, 1]
  let a := get stack 0
  let b := get stack 1
  let (carry, sum) := splitElement (.newUnchecked (a.asCanonicalU64 + b.asCanonicalU64))
  pure (setTwo stack sum carry, .u32Add sum carry)

/-- `op_u32add3`. -/
def opU32add3 : Outcome OperationError (σ × OperationHelperRegisters) := do
  requireU32Operands stack [0, 1, 2]
  let a := get stack 0
  let b := get stack 1
  let c := get stack 2
  let (carry, sum) := splitElement
    (.newUnchecked (a.asCanonicalU64 + b.asCanonicalU64 + c.asCanonicalU64))
  let stack ← decrementSize stack
  pure (setTwo stack sum carry, .u32Add3 sum carry)

/-- `op_u32sub`. -/
def opU32sub : Outcome OperationError (σ × OperationHelperRegisters) := do
  requireU32Operands stack [0, 1]
  let b := get stack 0
  let a := get stack 1
  -- `wrapping_sub` on 64 bits
  let result := (a.asCanonicalU64 + 2 ^ 64 - b.asCanonicalU64) % 2 ^ 64
  let borrow := Felt.newUnchecked (result / 2 ^ 63)
  let diff := Felt.newUnchecked (result % 2 ^ 32)
  pure (setTwo stack borrow diff, .u32Sub diff)

/-- `op_u32mul`. -/
def opU32mul : Outcome OperationError (σ × OperationHelperRegisters) := do
  requireU32Operands stack [0, 1]
  let a := get stack 0
  let b := get stack 1
  let (hi, lo) := splitElement (.newUnchecked (a.asCanonicalU64 * b.asCanonicalU64))
  pure (setTwo stack lo hi, .u32Mul lo hi)

/-- `op_u32madd`. -/
def opU32madd : Outcome OperationError (σ × OperationHelperRegisters) := do
  requireU32Operands stack [0, 1, 2]
  let a := get stack 0
  let b := get stack 1
  let c := get stack 2
  let (hi, lo) := splitElement
    (.newUnchecked (a.asCanonicalU64 * b.asCanonicalU64 + c.asCanonicalU64))
  let stack ← decrementSize stack
  pure (setTwo stack lo hi, .u32Madd lo hi)

/-- `op_u32div`. -/
def opU32div : Outcome OperationError (σ × OperationHelperRegisters) := do
  requireU32Operands stack [0, 1]
  let denominator := (get stack 0).asCanonicalU64
  let numerator := (get stack 1).asCanonicalU64
  if denominator = 0 then .err .divideByZero
  else
    let quotient := numerator / denominator
    let remainder := numerator - quotient * denominator
    let remainderDiff := denominator - remainder - 1
    pure (setTwo stack (.newUnchecked remainder) (.newUnchecked quotient),
      .u32Div (.newUnchecked quotient) (.newUnchecked remainder) (.newUnchecked remainderDiff))

/-- `op_u32assert2`. -/
def opU32assert2 (errCode : Felt) (stack : σ) : Outcome OperationError (σ × OperationHelperRegisters) :=
  let first := get stack 0
  let second := get stack 1
  let invalidValues := [first, second].filter (fun value => u32Max < value.asCanonicalU64)
  if invalidValues.isEmpty then .ok (stack, .u32Assert2 first second)
  else if errCode ≠ 0 then .err (.u32AssertionFailed errCode none invalidValues)
  else .err (.notU32Values invalidValues)

end Ops

/-! ## Helper columns -/

/-- The two 16-bit limbs of a 32-bit value, low first (`split_u32_into_u16`). -/
def splitU32IntoU16 (value : Felt) : Felt × Felt :=
  let value := value.asCanonicalU64
  (.newUnchecked (value % 2 ^ 16), .newUnchecked (value / 2 ^ 16 % 2 ^ 16))

/-- Six helpers from two 32-bit values and the last two columns. -/
def helperColumns (low high h4 h5 : Felt) : Vector Felt 6 :=
  let (t0, t1) := splitU32IntoU16 low
  let (t2, t3) := splitU32IntoU16 high
  #v[t0, t1, t2, t3, h4, h5]

/-- `(u32::MAX - hi).try_inverse().unwrap_or(ZERO)`. -/
def overflowInverse (hi : Felt) : Felt := (Felt.newUnchecked u32Max - hi)⁻¹

end MidenVm.Processor
