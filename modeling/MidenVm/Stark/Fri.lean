import MidenVm.Foundation.OrderedMap
import MidenVm.Stark.Deep
import MidenVm.Stark.TreeIndices

namespace MidenVm.Stark

open Foundation
open Foundation.TwoAdicField

/-!
# FRI

The prover folds a codeword by a fixed arity until it is short, commits to
every vector on the way as a matrix of cosets, and sends the coefficients of
the last polynomial.  The verifier opens rows at the queried indices, folds
them again, and evaluates the last polynomial.

Codewords are taken over the subgroup without a shift, in bit-reversed order.
Extension elements are not split into base elements, and the transcript is
replaced by the challenges it yields.
-/

/-! ## Parameters -/

/-- `FriFold`. -/
structure FriFold where
  logArity : Nat
  supported : logArity = 1 ∨ logArity = 2 ∨ logArity = 3

namespace FriFold

/-- `FriFold::new`. -/
def new (logArity : Nat) : Option FriFold :=
  if supported : logArity = 1 ∨ logArity = 2 ∨
    logArity = 3 then some ⟨logArity, supported⟩ else none

/-- `FriFold::arity`. -/
def arity (fold : FriFold) : Nat := 2 ^ fold.logArity

end FriFold

/-- `FriParams`. -/
structure FriParams where
  fold : FriFold
  logFinalDegree : Nat
  foldingPowBits : Nat

/-- `PcsParamsError`. -/
inductive PcsParamsError where
  | invalidFoldingArity (logArity : Nat)
  | zeroBlowup
  | zeroQueries
  | finalDegreeUnreachable (logFinalDegree logBlowup minTarget : Nat)
  deriving DecidableEq, Repr

/-- `PcsParams`. -/
structure PcsParams where
  logBlowup : Nat
  deepPowBits : Nat
  fri : FriParams
  numQueries : Nat
  queryPowBits : Nat

/-- `PcsParams::new`. -/
def PcsParams.new (logBlowup logFoldingArity logFinalDegree foldingPowBits deepPowBits numQueries
    queryPowBits : Nat) : Outcome PcsParamsError PcsParams := do
  let fold ← Outcome.okOr (FriFold.new logFoldingArity) (.invalidFoldingArity logFoldingArity)
  Outcome.ensure (logBlowup ≠ 0) .zeroBlowup
  Outcome.ensure (numQueries ≠ 0) .zeroQueries
  let minTarget := fold.logArity - 1
  Outcome.ensure (¬ min 255 (logFinalDegree + logBlowup) < minTarget)
    (.finalDegreeUnreachable logFinalDegree logBlowup minTarget)
  pure ⟨logBlowup, deepPowBits, ⟨fold, logFinalDegree, foldingPowBits⟩, numQueries, queryPowBits⟩

section Field

variable {F EF : Type} [Field F] [TwoAdicField F] [Field EF] [Algebra F EF] {ε : Type}

namespace FriParams

/-- `FriParams::num_rounds`. -/
def numRounds (params : FriParams) (domain : LiftedDomain F) : Nat :=
  let logMaxFinalSize := params.logFinalDegree + domain.logBlowup
  let numSteps := domain.logLdeHeight - logMaxFinalSize
  (numSteps + params.fold.logArity - 1) / params.fold.logArity

/-- `FriParams::final_poly_degree`. -/
def finalPolyDegree (params : FriParams) (domain : LiftedDomain F) : Nat :=
  let logFinalDomainSize := domain.logLdeHeight - params.numRounds domain * params.fold.logArity
  2 ^ (logFinalDomainSize - domain.logBlowup)

end FriParams

/-! ## Folding -/

namespace FriFold

/-- `twiddle_free_butterfly`. -/
def twiddleFreeButterfly (x1 x2 : EF) : EF × EF := (x1 + x2, x1 - x2)

/-- `dit_butterfly`. -/
def ditButterfly (x1 x2 : EF) (twiddle : F) : EF × EF :=
  (x1 + x2 * algebraMap F EF twiddle, x1 - x2 * algebraMap F EF twiddle)

/-- `arity2::fold_evals`. -/
def foldEvals2 (y0 y1 : EF) (sInv : F) (beta : EF) : EF :=
  (y0 + y1 + (y0 - y1) * beta * algebraMap F EF sInv) * 2⁻¹

/-- `ifft4`, on values in bit-reversed order. -/
def ifft4 (F : Type) [Field F] [TwoAdicField F] [Algebra F EF] (y0 y2 y1 y3 : EF) : EF × EF × EF × EF :=
  let w := algebraMap F EF (twoAdicGenerator 2)
  let s02 := y0 + y2
  let d02 := y0 - y2
  let s13 := y1 + y3
  let d31 := y3 - y1
  let d31w := d31 * w
  (s02 + s13, d02 + d31w, s02 - s13, d02 - d31w)

/-- `arity4::fold_evals`. -/
def foldEvals4 (y0 y2 y1 y3 : EF) (sInv : F) (beta : EF) : EF :=
  let c := ifft4 F y0 y2 y1 y3
  let x := beta * algebraMap F EF sInv
  (c.1 + c.2.1 * x + c.2.2.1 * x ^ 2 + c.2.2.2 * x ^ 3) * algebraMap F EF (2⁻¹ * 2⁻¹)

/-- `ifft8`, on values in bit-reversed order; the coefficients by their index. -/
def ifft8 (F : Type) [Field F] [TwoAdicField F] [Algebra F EF] (y0 y4 y2 y6 y1 y5 y3 y7 : EF) : Fin 8 -> EF :=
  let w8 : F := twoAdicGenerator 3
  let w82 : F := twoAdicGenerator 2
  let w83 := w82 * w8
  let w85 := w83 * w82
  let w86 := w83 ^ 2
  let w87 := w86 * w8
  let (a0, a1) := twiddleFreeButterfly y0 y4
  let (a2, a3) := twiddleFreeButterfly y2 y6
  let (a4, a5) := twiddleFreeButterfly y1 y5
  let (a6, a7) := twiddleFreeButterfly y3 y7
  let (b0, b2) := twiddleFreeButterfly a0 a2
  let (b1, b3) := ditButterfly a1 a3 w86
  let (b4, b6) := twiddleFreeButterfly a4 a6
  let (b5, b7) := ditButterfly a5 a7 w86
  let (c0, c4) := twiddleFreeButterfly b0 b4
  let (c1, c5) := ditButterfly b1 b5 w87
  let (c2, c6) := ditButterfly b2 b6 w86
  let (c3, c7) := ditButterfly b3 b7 w85
  ![c0, c1, c2, c3, c4, c5, c6, c7]

/-- `arity8::fold_evals`. -/
def foldEvals8 (y0 y4 y2 y6 y1 y5 y3 y7 : EF) (sInv : F) (beta : EF) : EF :=
  let coeffs := ifft8 F y0 y4 y2 y6 y1 y5 y3 y7
  let x := beta * algebraMap F EF sInv
  (∑ index : Fin 8, coeffs index * x ^ (index : Nat)) * algebraMap F EF (2⁻¹ * 2⁻¹ * 2⁻¹)

variable (fold : FriFold)

/-- `FriFold::fold_evals`, on a row of as many values as the arity. -/
def foldEvals (row : List EF) (sInv : F) (beta : EF) : EF :=
  match fold.logArity with
  | 1 => foldEvals2 (row.getD 0 0) (row.getD 1 0) sInv beta
  | 2 => foldEvals4 (row.getD 0 0) (row.getD 1 0) (row.getD 2 0) (row.getD 3 0) sInv beta
  | _ => foldEvals8 (row.getD 0 0) (row.getD 1 0) (row.getD 2 0) (row.getD 3 0) (row.getD 4 0)
      (row.getD 5 0) (row.getD 6 0) (row.getD 7 0) sInv beta

/-- A row of the matrix that a vector is reshaped into. -/
def matrixRow (values : List EF) (row : Nat) : List EF :=
  table fold.arity (fun column => values.getD (row * fold.arity + column) 0)

/-- `FriFold::fold_matrix`. -/
def foldMatrix (values : List EF) (sInvs : List F) (beta : EF) : List EF :=
  table (min (values.length / fold.arity) sInvs.length) (fun row =>
    fold.foldEvals (fold.matrixRow values row) (sInvs.getD row 0) beta)

end FriFold

/-! ## The prover -/

/-- What the commit phase leaves: the vector committed in every round and the
coefficients sent at the end. -/
structure FriPolys (EF : Type) where
  foldedTrees : List (List EF)
  finalPoly : List EF

namespace FriPolys

/-- The `while` loop of `FriPolys::new`, with a bound on the number of rounds:
the vectors committed and the one left. -/
def commitLoop (fold : FriFold) (finalDomainSize : Nat) (beta : Nat -> EF) :
    Nat -> Nat -> TwoAdicSubgroup F -> List F -> List EF -> Outcome ε (List (List EF) × List EF)
  | fuel, round, subgroup, sInvs, foldedEvals =>
    if 2 ^ subgroup.logSize > finalDomainSize then
      match fuel with
      | 0 => .panic
      | fuel + 1 => do
          let foldedSubgroup ← subgroup.shrink fold.logArity
          let nextEvals := fold.foldMatrix foldedEvals sInvs (beta round)
          let nextFoldedSize := 2 ^ foldedSubgroup.logSize / 2 ^ fold.logArity
          let nextInvs := table nextFoldedSize (fun row =>
            sInvs.getD (row * fold.arity) 0 ^ 2 ^ fold.logArity)
          let rest ← commitLoop fold finalDomainSize beta fuel (round + 1) foldedSubgroup nextInvs nextEvals
          pure (foldedEvals :: rest.1, rest.2)
    else .ok ([], foldedEvals)

/-- The inverse transform over the subgroup of the length of the vector. -/
def idft (values : List EF) : List EF :=
  table values.length (fun coeff => ((values.length : Nat) : EF)⁻¹ *
    ∑ index ∈ Finset.range values.length, values.getD index 0 *
      (algebraMap F EF (twoAdicGenerator values.length.log2))⁻¹ ^ (index * coeff))

variable [DecidableEq F]

/-- `FriPolys::new`, with the challenge of each round. -/
def new (params : FriParams) (domain : LiftedDomain F) (evals : List EF) (beta : Nat -> EF) :
    Outcome ε (FriPolys EF) := do
  let subgroup := domain.ldeCoset.subgroup
  let finalPolyDegree := params.finalPolyDegree domain
  let finalDomainSize := finalPolyDegree * 2 ^ domain.logBlowup
  let generatorInverse ← Coset.generatorInverse subgroup
  let sInvs := reverseSliceIndexBits (table (2 ^ subgroup.logSize / 2 ^ params.fold.logArity)
    (fun index => generatorInverse ^ index))
  let committed ← commitLoop params.fold finalDomainSize beta subgroup.logSize 0 subgroup sInvs evals
  let foldedEvals := reverseSliceIndexBits (committed.2.take finalPolyDegree)
  pure ⟨committed.1, (idft (F := F) foldedEvals).reverse⟩

end FriPolys

/-! ## The verifier -/

/-- `FriError`, without the errors of the transcript crate. -/
inductive FriError where
  | lmcsError (source : LmcsError) (round : Nat)
  | invalidOpening (treeIndex round : Nat)
  | evaluationMismatch (round treeIndex position : Nat)
  | finalPolyMismatch (treeIndex : Nat)
  deriving DecidableEq, Repr

/-- `FriOracle`: the challenges of the rounds and the coefficients received. -/
structure FriOracle (F EF : Type) [Field F] [TwoAdicField F] where
  subgroup : TwoAdicSubgroup F
  betas : List EF
  finalPoly : List EF

namespace FriOracle

/-- What `open_batch` yields for the tree of a round: the row at each index. -/
abbrev OpenRound (EF : Type) := Nat -> TreeIndices -> Outcome LmcsError (Nat -> Option (List EF))

variable [DecidableEq EF]

/-- One query in one round: the opened row must hold the value at the position of
the index, and is folded. -/
def foldQuery (fold : FriFold) (round : Nat) (beta : EF)
    (foldedSubgroup : TwoAdicSubgroup F) (gInv : F)
    (openedRows : Nat -> Option (List EF)) (entry : Nat × EF) : Outcome FriError (Nat × EF) := do
  let rowIdx := entry.1 % 2 ^ foldedSubgroup.logSize
  let position := reverseBits fold.logArity (entry.1 / 2 ^ foldedSubgroup.logSize)
  let row ← Outcome.okOr (openedRows rowIdx) (.invalidOpening rowIdx round)
  Outcome.ensure (row[position]? = some entry.2) (.evaluationMismatch round rowIdx position)
  pure (rowIdx, fold.foldEvals row (gInv ^ rowIdx) beta)

/-- The rounds of `FriOracle::test_low_degree`. -/
def testRounds (fold : FriFold) (openRound : OpenRound EF) :
    List EF -> Nat -> TwoAdicSubgroup F -> F -> OrderedMap Nat EF -> TreeIndices ->
      Outcome FriError (TwoAdicSubgroup F × OrderedMap Nat EF)
  | [], _, subgroup, _, evals, _ => .ok (subgroup, evals)
  | beta :: rest, round, subgroup, gInv, evals, treeIndices => do
      let foldedSubgroup ← subgroup.shrink fold.logArity
      let shrunk := treeIndices.shrinkDepth fold.logArity
      let openedRows ← Outcome.mapErr (FriError.lmcsError · round) (openRound round shrunk)
      let folded ← Outcome.collect evals.entries (foldQuery fold round beta foldedSubgroup gInv openedRows)
      testRounds fold openRound rest (round + 1) foldedSubgroup (gInv ^ 2 ^ fold.logArity)
        (OrderedMap.empty.insertAll folded) shrunk

variable [DecidableEq F]

/-- `FriOracle::test_low_degree`. -/
def testLowDegree (oracle : FriOracle F EF) (params : FriParams) (openRound : OpenRound EF)
    (evals : OrderedMap Nat EF) (treeIndices : TreeIndices) : Outcome FriError Unit := do
  let gInv ← Coset.generatorInverse oracle.subgroup
  let final ← testRounds params.fold openRound oracle.betas 0 oracle.subgroup gInv evals treeIndices
  Outcome.forEach final.2.entries (fun entry =>
    Outcome.ensure (hornerAcc 0 (algebraMap F EF (Coset.generator final.1 ^ entry.1)) oracle.finalPoly = entry.2)
      (.finalPolyMismatch entry.1))

end FriOracle

end Field

end MidenVm.Stark
