import MidenVm.Foundation.OrderedMap
import MidenVm.Foundation.Outcome

namespace MidenVm.Processor

open Foundation Outcome

/-!
# The range checker

The checker counts the lookups of each 16-bit value.  Its table lists the looked
up values in ascending order; between two of them it puts bridge rows, so that no
step is wider than the constraint allows.  The number of rows is computed by a
second loop of its own.

The loops over strides have no visible bound.  Here they run for a given number of
rounds and report an error when it is used up.
-/

/-- `u16`. -/
abbrev U16 : Type := Fin (2 ^ 16)

/-- `u16::MAX`. -/
def u16Max : U16 := 65535

/-- A row of the table: the multiplicity and the value. -/
structure RangeRow where
  m : Nat
  v : Nat
  deriving DecidableEq

/-- The loop of `get_num_bridge_rows`. -/
def bridgeLoop : Nat -> Nat -> Nat -> Nat -> Outcome Unit Nat
  | 0, _, _, _ => .err ()
  | rounds + 1, gap, stride, bridgeRows =>
    if gap = stride then .ok bridgeRows
    else if gap > stride then bridgeLoop rounds (gap - stride) stride (bridgeRows + 1)
    else bridgeLoop rounds gap (stride / 3) bridgeRows

/-- `get_num_bridge_rows`. -/
def getNumBridgeRows (rounds delta : Nat) : Outcome Unit Nat := bridgeLoop rounds delta (3 ^ 7) 0

/-- The loop of `write_rows`, with the rows that it writes. -/
def writeLoop : Nat -> Nat -> Nat -> Nat -> Outcome Unit (List RangeRow)
  | 0, _, _, _ => .err ()
  | rounds + 1, gap, prevVal, stride =>
    if gap = stride then .ok []
    else if gap > stride then do
      let rows ← writeLoop rounds (gap - stride) (prevVal + stride) stride
      pure (⟨0, prevVal + stride⟩ :: rows)
    else writeLoop rounds gap prevVal (stride / 3)

/-- `write_rows`. -/
def writeRows (rounds numLookups value prevValue : Nat) : Outcome Unit (List RangeRow) := do
  let gap ← checkedSub value prevValue
  let rows ← writeLoop rounds gap prevValue (3 ^ 7)
  pure (rows ++ [⟨numLookups, value⟩])

/-- The loop of `emit_table_rows`. -/
def emitEntries (rounds : Nat) : Nat -> List (U16 × Nat) -> Outcome Unit (List RangeRow)
  | _, [] => .ok []
  | prevValue, (value, numLookups) :: rest => do
    let rows ← writeRows rounds numLookups value prevValue
    let more ← emitEntries rounds value rest
    pure (rows ++ more)

/-- The loop of `get_number_range_checker_rows`. -/
def countEntries (rounds : Nat) : Nat -> Nat -> List (U16 × Nat) -> Outcome Unit Nat
  | _, numRows, [] => .ok numRows
  | prevValue, numRows, (value, _) :: rest => do
    let delta ← checkedSub value prevValue
    let bridgeRows ← getNumBridgeRows rounds delta
    countEntries rounds value (numRows + 1 + bridgeRows) rest

/-- `RangeChecker`: the lookup count of each checked value. -/
structure RangeChecker where
  lookups : OrderedMap U16 Nat

namespace RangeChecker

/-- `RangeChecker::new`. -/
def new : RangeChecker := ⟨(OrderedMap.empty.insert 0 0).insert u16Max 0⟩

variable (checker : RangeChecker)

/-- `add_value`. -/
def addValue (value : U16) : RangeChecker :=
  ⟨checker.lookups.insert value (((checker.lookups.get? value).map (· + 1)).getD 1)⟩

/-- `add_range_checks`. -/
def addRangeChecks (values : List U16) : RangeChecker :=
  values.foldl addValue checker

/-- `emit_table_rows`. -/
def emitTableRows (rounds : Nat) : Outcome Unit (List RangeRow) := do
  let rows ← emitEntries rounds 0 checker.lookups.entries
  pure (rows ++ [⟨0, u16Max⟩])

/-- `get_number_range_checker_rows`. -/
def getNumberRangeCheckerRows (rounds : Nat) : Outcome Unit Nat :=
  countEntries rounds 0 1 checker.lookups.entries

end RangeChecker

end MidenVm.Processor
