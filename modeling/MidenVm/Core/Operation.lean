import MidenVm.Core.Goldilocks

namespace MidenVm

/-!
# Basic-block operations

The operations a basic block may hold, with their 7-bit opcodes.  Four of
them carry a field element: `push` an immediate value, and `assert`,
`u32assert2` and `mpVerify` an error code.  Only the immediate takes part in
the commitment to a block; an error code is serialized with the operation
but is not hashed.
-/

variable {value : Felt}

inductive Operation where
  -- system operations
  | noop | assert (errCode : Felt) | sDepth | caller | clk | emit
  -- field operations
  | add | neg | mul | inv | incr | and | or | not | eq | eqz | expacc
  -- ext2 operations
  | ext2Mul
  -- u32 operations
  | u32split | u32add | u32assert2 (errCode : Felt) | u32add3 | u32sub | u32mul | u32madd
  | u32div | u32and | u32xor
  -- stack manipulation
  | pad | drop | dup0 | dup1 | dup2 | dup3 | dup4 | dup5 | dup6 | dup7 | dup9 | dup11 | dup13
  | dup15 | swap | swapW | swapW2 | swapW3 | swapDW | movUp2 | movUp3 | movUp4 | movUp5 | movUp6
  | movUp7 | movUp8 | movDn2 | movDn3 | movDn4 | movDn5 | movDn6 | movDn7 | movDn8 | cSwap
  | cSwapW
  -- input / output
  | push (value : Felt) | advPop | advPopW | mLoadW | mStoreW | mLoad | mStore | mStream | pipe
  | cryptoStream
  -- cryptographic operations
  | hPerm | mpVerify (errCode : Felt) | mrUpdate | friE2F4 | hornerBase | hornerExt | evalCircuit
  | logDeferred
  deriving DecidableEq

variable {op : Operation}

namespace Operation

/-- `Operation::OP_BITS`. -/
def opBits : Nat := 7

/-- `Operation::op_code`, the discriminants of the enumeration. -/
def opCode : Operation -> Nat
  | .noop => 0 | .assert _ => 32 | .sDepth => 62 | .caller => 9 | .clk => 63 | .emit => 31
  | .add => 34 | .neg => 2 | .mul => 35 | .inv => 3 | .incr => 4 | .and => 36 | .or => 37
  | .not => 5 | .eq => 33 | .eqz => 1 | .expacc => 15 | .ext2Mul => 25 | .u32split => 72
  | .u32add => 64 | .u32assert2 _ => 74 | .u32add3 => 76 | .u32sub => 66 | .u32mul => 68
  | .u32madd => 78 | .u32div => 70 | .u32and => 38 | .u32xor => 39 | .pad => 48 | .drop => 41
  | .dup0 => 49 | .dup1 => 50 | .dup2 => 51 | .dup3 => 52 | .dup4 => 53 | .dup5 => 54
  | .dup6 => 55 | .dup7 => 56 | .dup9 => 57 | .dup11 => 58 | .dup13 => 59 | .dup15 => 60
  | .swap => 8 | .swapW => 24 | .swapW2 => 28 | .swapW3 => 29 | .swapDW => 30 | .movUp2 => 10
  | .movUp3 => 12 | .movUp4 => 16 | .movUp5 => 18 | .movUp6 => 20 | .movUp7 => 22 | .movUp8 => 26
  | .movDn2 => 11 | .movDn3 => 13 | .movDn4 => 17 | .movDn5 => 19 | .movDn6 => 21 | .movDn7 => 23
  | .movDn8 => 27 | .cSwap => 42 | .cSwapW => 43 | .push _ => 91 | .advPop => 61 | .advPopW => 14
  | .mLoadW => 44 | .mStoreW => 46 | .mLoad => 7 | .mStore => 45 | .mStream => 83 | .pipe => 82
  | .cryptoStream => 100 | .hPerm => 80 | .mpVerify _ => 81 | .mrUpdate => 96 | .friE2F4 => 40
  | .hornerBase => 89 | .hornerExt => 90 | .evalCircuit => 93 | .logDeferred => 94

/-- `Operation::imm_value`. -/
def immValue : Operation -> Option Felt
  | .push value => some value
  | _ => none

/-- The field element an operation carries, immediate or error code. -/
def carried : Operation -> Option Felt
  | .push value => some value
  | .assert errCode => some errCode
  | .u32assert2 errCode => some errCode
  | .mpVerify errCode => some errCode
  | _ => none

/-- The opcodes without data, as `Operation::read_from` lists them. -/
def plainOfCode : Nat -> Option Operation
  | 0 => some .noop | 1 => some .eqz | 2 => some .neg | 3 => some .inv | 4 => some .incr
  | 5 => some .not | 7 => some .mLoad | 8 => some .swap | 9 => some .caller | 10 => some .movUp2
  | 11 => some .movDn2 | 12 => some .movUp3 | 13 => some .movDn3 | 14 => some .advPopW
  | 15 => some .expacc | 16 => some .movUp4 | 17 => some .movDn4 | 18 => some .movUp5
  | 19 => some .movDn5 | 20 => some .movUp6 | 21 => some .movDn6 | 22 => some .movUp7
  | 23 => some .movDn7 | 24 => some .swapW | 25 => some .ext2Mul | 26 => some .movUp8
  | 27 => some .movDn8 | 28 => some .swapW2 | 29 => some .swapW3 | 30 => some .swapDW
  | 31 => some .emit | 33 => some .eq | 34 => some .add | 35 => some .mul | 36 => some .and
  | 37 => some .or | 38 => some .u32and | 39 => some .u32xor | 40 => some .friE2F4
  | 41 => some .drop | 42 => some .cSwap | 43 => some .cSwapW | 44 => some .mLoadW
  | 45 => some .mStore | 46 => some .mStoreW | 48 => some .pad | 49 => some .dup0
  | 50 => some .dup1 | 51 => some .dup2 | 52 => some .dup3 | 53 => some .dup4 | 54 => some .dup5
  | 55 => some .dup6 | 56 => some .dup7 | 57 => some .dup9 | 58 => some .dup11
  | 59 => some .dup13 | 60 => some .dup15 | 61 => some .advPop | 62 => some .sDepth
  | 63 => some .clk | 64 => some .u32add | 66 => some .u32sub | 68 => some .u32mul
  | 70 => some .u32div | 72 => some .u32split | 76 => some .u32add3 | 78 => some .u32madd
  | 80 => some .hPerm | 82 => some .pipe | 83 => some .mStream | 89 => some .hornerBase
  | 90 => some .hornerExt | 93 => some .evalCircuit | 94 => some .logDeferred
  | 96 => some .mrUpdate | 100 => some .cryptoStream
  | _ => none

/-- The opcodes followed by a field element, as `Operation::read_from` lists them. -/
def carrierOfCode : Nat -> Option (Felt -> Operation)
  | 32 => some .assert | 74 => some .u32assert2 | 81 => some .mpVerify | 91 => some .push
  | _ => none

theorem opCode_lt (op : Operation) : op.opCode < 128 := by
  cases op <;> simp [opCode]

/-- An operation without data is recovered from its opcode. -/
theorem plainOfCode_opCode (plain : op.carried = none) :
    plainOfCode op.opCode = some op ∧ carrierOfCode op.opCode = none := by
  cases op <;> first | exact ⟨rfl, rfl⟩ | cases plain

/-- An operation with data is recovered from its opcode and its data. -/
theorem carrierOfCode_opCode (carries : op.carried = some value) :
    ∃ make, carrierOfCode op.opCode = some make ∧ make value = op := by
  cases op <;> cases carries <;> exact ⟨_, rfl, rfl⟩

/-! ## Opcodes read back without the data they carry -/

/-- The operation with its error code erased; immediates stay. -/
def forgetErrCode : Operation -> Operation
  | .assert _ => .assert 0
  | .u32assert2 _ => .u32assert2 0
  | .mpVerify _ => .mpVerify 0
  | op => op

/-- The operation of a nonzero opcode, with zero for the data it carries. -/
def ofCode (code : Nat) : Operation :=
  match plainOfCode code, carrierOfCode code with
  | some op, _ => op
  | none, some make => make 0
  | none, none => .noop

/-- The opcode of `push`. -/
def pushCode : Nat := 91

theorem opCode_eq_zero : op.opCode = 0 ↔ op = .noop := by
  cases op <;> simp [opCode]

theorem opCode_eq_pushCode : op.opCode = pushCode ↔ op.immValue.isSome := by
  cases op <;> simp [opCode, pushCode, immValue]

theorem ofCode_opCode (plain : op.immValue = none) : ofCode op.opCode = op.forgetErrCode := by
  cases op <;> first | rfl | cases plain

theorem eq_push_of_immValue (carries : op.immValue = some value) : op = .push value := by
  cases op <;> cases carries
  rfl

end Operation

end MidenVm
