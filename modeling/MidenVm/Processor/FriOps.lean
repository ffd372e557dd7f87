import MidenVm.Processor.StackInterface

namespace MidenVm.Processor

open Foundation StackInterface

/-!
# Folding a FRI layer on the stack

The recursive verifier folds four values of a layer into one with a single
operation.  The values lie on the stack in bit-reversed order; the operation
checks one of them against the value that the previous layer left, folds the four
at the challenge and writes the state of the next round.
-/

/-- `TWO_INV`. -/
def twoInv : Felt := 9223372034707292161

/-- `TAU_INV`. -/
def tauInv : Felt := 18446462594437873665

/-- `TAU2_INV`. -/
def tau2Inv : Felt := 18446744069414584320

/-- `TAU3_INV`. -/
def tau3Inv : Felt := 281474976710656

variable (coset : Fin 4)

/-- `bit_reverse_coset`. -/
def bitReverseCoset : Fin 4 :=
  match coset with
  | 0 => 0
  | 1 => 2
  | 2 => 1
  | 3 => 3

/-- `reorder_bitrev4`. -/
def reorderBitrev4 (values : Fin 4 -> QuadFelt) : Fin 4 -> QuadFelt :=
  ![values 0, values 2, values 1, values 3]

/-- `get_tau_factor`. -/
def getTauFactor : Felt :=
  match coset with
  | 0 => 1
  | 1 => tauInv
  | 2 => tau2Inv
  | 3 => tau3Inv

/-- `get_coset_flags`. -/
def getCosetFlags : Fin 4 -> Felt :=
  match coset with
  | 0 => ![1, 0, 0, 0]
  | 1 => ![0, 1, 0, 0]
  | 2 => ![0, 0, 1, 0]
  | 3 => ![0, 0, 0, 1]

/-- `compute_evaluation_points`. -/
def computeEvaluationPoints (alpha : QuadFelt) (xInv : Felt) : QuadFelt × QuadFelt :=
  let ev := alpha * algebraMap Felt QuadFelt xInv
  let es := ev * ev
  (ev, es)

/-- `fold2`. -/
def fold2 (fX fNegX ep : QuadFelt) : QuadFelt :=
  (fX + fNegX + (fX - fNegX) * ep) * algebraMap Felt QuadFelt twoInv

/-- `fold4`: the folded value and the two halfway. -/
def fold4 (values : Fin 4 -> QuadFelt) (ev es : QuadFelt) : QuadFelt × QuadFelt × QuadFelt :=
  let tmp0 := fold2 (values 0) (values 2) ev
  let tmp1 := fold2 (values 1) (values 3) (ev * algebraMap Felt QuadFelt tauInv)
  let foldedValue := fold2 tmp0 tmp1 es
  (foldedValue, tmp0, tmp1)

/-- `OperationHelperRegisters::FriExt2Fold4`. -/
structure FriExt2Fold4 where
  ev : QuadFelt
  es : QuadFelt
  x : Felt
  xInv : Felt

section Op

variable {σ : Type} [StackInterface σ]

/-- `get_query_values`. -/
def getQueryValues (stack : σ) : Fin 4 -> QuadFelt :=
  ![⟨get stack 0, get stack 1⟩, ⟨get stack 2, get stack 3⟩, ⟨get stack 4, get stack 5⟩,
    ⟨get stack 6, get stack 7⟩]

/-- `op_fri_ext2fold4`. -/
def opFriExt2fold4 (stack : σ) : Outcome OperationError (σ × FriExt2Fold4) :=
  let queryValues := getQueryValues stack
  let queryValuesReordered := reorderBitrev4 queryValues
  let coset := (get stack 9).asCanonicalU64
  if beyond : coset > 3 then .err (.friError (.cosetIndex coset)) else do
    -- below, the matches on the index cannot reach their `panic!`
    let coset : Fin 4 := ⟨coset, Nat.lt_of_not_le beyond⟩
    let foldedPos := get stack 8
    let poe := get stack 10
    Outcome.ensure (poe ≠ 0) (.friError .domainSizeZero)
    let prevValue : QuadFelt := ⟨get stack 11, get stack 12⟩
    let alpha : QuadFelt := ⟨get stack 13, get stack 14⟩
    let layerPtr := get stack 15
    let rowIdx := bitReverseCoset coset
    Outcome.ensure (queryValues rowIdx = prevValue) (.friError (.inconsistentProjection coset rowIdx
      poe.asCanonicalU64 foldedPos.asCanonicalU64 prevValue (queryValues rowIdx) queryValues))
    let fTau := getTauFactor coset
    let x := poe * fTau
    let xInv := x⁻¹
    let (ev, es) := computeEvaluationPoints alpha xInv
    let (foldedValue, tmp0, tmp1) := fold4 queryValuesReordered ev es
    let cosetFlags := getCosetFlags coset
    let poe2 := poe * poe
    let poe4 := poe2 * poe2
    let stack ← decrementSize stack
    let stack := set stack 0 tmp0.re
    let stack := set stack 1 tmp0.im
    let stack := set stack 2 tmp1.re
    let stack := set stack 3 tmp1.im
    let stack := set stack 4 (cosetFlags 1)
    let stack := set stack 5 (cosetFlags 2)
    let stack := set stack 6 (cosetFlags 3)
    let stack := set stack 7 poe2
    let nextLayerPtr := layerPtr + 8
    let stack := set stack 8 nextLayerPtr
    let stack := set stack 9 nextLayerPtr
    let stack := set stack 10 poe4
    let stack := set stack 11 foldedPos
    let stack := set stack 12 foldedValue.re
    let stack := set stack 13 foldedValue.im
    let stack := set stack 14 nextLayerPtr
    pure (stack, ⟨ev, es, x, xInv⟩)

end Op

end MidenVm.Processor
