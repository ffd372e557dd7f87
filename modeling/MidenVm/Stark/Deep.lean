import MidenVm.Stark.Domain

namespace MidenVm.Stark

open Foundation

/-!
# The DEEP quotient

The prover evaluates every committed column at the opening points by the
barycentric formula, with weights that are shared between heights, reduces all
columns with one challenge, and divides by the distances to the points.  The
verifier recomputes the quotient at the queried positions from opened rows.

A committed matrix is read by row and column; its rows are stored in
bit-reversed order.  An array of `N` values is a function on `Fin N`, with the
operations of the field array taken pointwise.
-/

/-- A matrix whose height is a power of two. -/
structure Matrix (α : Type) where
  logHeight : Nat
  width : Nat
  entry : Nat -> Nat -> α

namespace Matrix

variable {α : Type}

def height (matrix : Matrix α) : Nat := 2 ^ matrix.logHeight

def row (matrix : Matrix α) (index : Nat) : List α := table matrix.width (matrix.entry index)

end Matrix

/-- `aligned_len`. -/
def alignedLen (len alignment : Nat) : Nat :=
  if alignment ≤ 1 then len else (len + alignment - 1) / alignment * alignment

theorem le_alignedLen (len alignment : Nat) : len ≤ alignedLen len alignment := by
  unfold alignedLen
  split
  · exact le_rfl
  · rename_i large
    have step := Nat.div_add_mod (len + alignment - 1) alignment
    have rest := Nat.mod_lt (len + alignment - 1) (show 0 < alignment by omega)
    rw [mul_comm] at step
    omega

/-- `RowList::iter_aligned`. -/
def iterAligned {α : Type} [Zero α] (rows : List (List α)) (alignment : Nat) : List α :=
  rows.flatMap (fun row => row ++ List.replicate (alignedLen row.length alignment - row.length) 0)

/-- `iter.rev().horner_acc(acc, x)`: the first value gets the highest power. -/
def hornerAcc {R : Type} [Add R] [Mul R] (acc x : R) (values : List R) : R :=
  values.foldl (fun acc value => acc * x + value) acc

/-- `log2_strict_usize`. -/
def log2Strict {ε : Type} (size : Nat) : Outcome ε Nat :=
  if size = 2 ^ size.log2 then .ok size.log2 else .panic

variable {F EF : Type} [Field F] [Field EF] [Algebra F EF] [DecidableEq F] [DecidableEq EF]
  {ε : Type} {N : Nat}

/-! ## Evaluations at the opening points -/

/-- `PointQuotients`: the inverted distances of the opening points to the points
of the coset. -/
structure PointQuotients (EF : Type) (N : Nat) where
  points : Fin N -> EF
  pointQuotient : List (Fin N -> EF)

namespace PointQuotients

/-- Componentwise inversion. -/
def inverseEach (values : Fin N -> EF) : Outcome ε (Fin N -> EF) :=
  if ∃ index, values index = 0 then .panic else .ok (fun index => (values index)⁻¹)

/-- `PointQuotients::new`. -/
def new (points : Fin N -> EF) (cosetPoints : List F) : Outcome ε (PointQuotients EF N) := do
  let diffs := cosetPoints.map (fun x index => points index - algebraMap F EF x)
  let _ ← batchInverse (diffs.flatMap List.ofFn)
  pure ⟨points, diffs.map (fun diff index => (diff index)⁻¹)⟩

/-- `barycentric_scalings`. -/
def barycentricScalings (points : Fin N -> EF) (shiftInverse : F) (logD : Nat) :
    Outcome ε (Fin N -> EF) := do
  let inverted ← inverse ((2 : EF) ^ logD)
  pure (fun index => points index *
    (((points index * algebraMap F EF shiftInverse) ^ 2 ^ logD - 1) * inverted))

/-- `used_degrees`, from the largest down. -/
def usedDegrees (groups : List (List (Matrix F))) (logBlowup : Nat) : List Nat :=
  (groups.flatten.map (fun matrix => matrix.height / 2 ^ logBlowup)).toFinset.sort (· ≥ ·)

/-- The sums of chunks of a size. -/
def sumChunks (chunkSize : Nat) (weights : List (Fin N -> EF)) : List (Fin N -> EF) :=
  table (weights.length / chunkSize) (fun index =>
    ∑ offset ∈ Finset.range chunkSize, weights.getD (index * chunkSize + offset) 0)

/-- The weights of smaller degrees, each summed from the last. -/
def foldWeights : List Nat -> List (Fin N -> EF) -> List (List (Fin N -> EF))
  | [], _ => []
  | degree :: rest, previous =>
    let weights := sumChunks (previous.length / degree) previous
    weights :: foldWeights rest weights

/-- `columnwise_dot_product_batched`, scaled. -/
def evalMatrix (weights : List (Fin N -> EF)) (scalings : Fin N -> EF) (matrix : Matrix F) :
    List (Fin N -> EF) :=
  table matrix.width (fun column =>
    (∑ index ∈ Finset.range weights.length,
      weights.getD index 0 * fun _ => algebraMap F EF (matrix.entry index column)) * scalings)

/-- `PointQuotients::batch_eval_lifted`: for every matrix its columns at all
points. -/
def batchEvalLifted (quotients : PointQuotients EF N) (groups : List (List (Matrix F)))
    (cosetPoints : List F) (logBlowup : Nat) : Outcome ε (List (List (Fin N -> EF))) := do
  let d := cosetPoints.length / 2 ^ logBlowup
  let logD ← log2Strict d
  let shiftInverse ← inverse (cosetPoints.getD 0 0)
  let scalings ← barycentricScalings quotients.points shiftInverse logD
  let invPoints ← inverseEach quotients.points
  let degrees := usedDegrees groups logBlowup
  Outcome.require (degrees.head? = some d)
  let topWeights := (quotients.pointQuotient.take d).map (· - invPoints)
  let weights := topWeights :: foldWeights degrees.tail topWeights
  Outcome.collect groups.flatten (fun matrix => do
    let found ← Outcome.expect (weights.find? (fun held =>
      held.length = matrix.height / 2 ^ logBlowup))
    pure (evalMatrix found scalings matrix))

end PointQuotients

/-! ## The prover -/

namespace DeepPoly

/-- Coefficients split by the widths of the matrices. -/
def splitWidths : List Nat -> List EF -> List (List EF)
  | [], _ => []
  | width :: rest, values => values.take width :: splitWidths rest (values.drop width)

/-- `neg_column_coeffs`. -/
def negColumnCoeffs (challengeColumns : EF) (alignedWidths : List Nat) : List (List EF) :=
  splitWidths alignedWidths
    (table alignedWidths.sum (fun power => -1 * challengeColumns ^ power)).reverse

/-- One row of `rowwise_packed_dot_product`. -/
def dotRow (matrix : Matrix F) (coeffs : List EF) (row : Nat) : EF :=
  ∑ column ∈ Finset.range matrix.width, algebraMap F EF (matrix.entry row column) * coeffs.getD column 0

/-- Every value repeated. -/
def upsample (factor : Nat) (values : List EF) : List EF := values.flatMap (List.replicate factor)

/-- Add the reduced rows of a matrix. -/
def addRows (matrix : Matrix F) (coeffs acc : List EF) : List EF :=
  table acc.length (fun row => acc.getD row 0 + dotRow matrix coeffs row)

/-- The loop of `accumulate_matrices`.  The accumulator is as long as the last
matrix is high. -/
def accumulateLoop : List (Matrix F × List EF) -> List EF -> List EF
  | [], acc => acc
  | (matrix, coeffs) :: rest, acc =>
    let raised := if matrix.height > acc.length then upsample (matrix.height / acc.length) acc
      else acc
    accumulateLoop rest (addRows matrix coeffs raised)

/-- `accumulate_matrices`. -/
def accumulateMatrices (matrices : List (Matrix F × List EF)) : Outcome ε (List EF) :=
  match matrices with
  | [] => .panic
  | (first, _) :: _ => .ok (accumulateLoop matrices (List.replicate first.height 0))

/-- `add_lifted`. -/
def addLifted (left right : List EF) : List EF :=
  let long := if right.length ≤ left.length then left else right
  let short := if right.length ≤ left.length then right else left
  let ratio := long.length / short.length
  table long.length (fun index => long.getD index 0 + short.getD (index / ratio) 0)

/-- The coefficients of each group of matrices. -/
def groupCoeffs : List (List (Matrix F)) -> List (List EF) -> List (List (Matrix F × List EF))
  | [], _ => []
  | matrices :: rest, coeffs =>
    matrices.zip (coeffs.take matrices.length) :: groupCoeffs rest (coeffs.drop matrices.length)

/-- `Iterator::reduce` with `add_lifted`. -/
def reduceLifted (size : Nat) : List (List EF) -> List EF
  | [] => List.replicate size 0
  | first :: rest => rest.foldl addLifted first

/-- The negated reduction of all columns over the domain. -/
def negFReduced (size : Nat) (groups : List (List (Matrix F × List EF))) : Outcome ε (List EF) :=
  if groups.flatten.all (fun held => held.1.height = size) then
    .ok (groups.flatten.foldl (fun acc held => addRows held.1 held.2 acc) (List.replicate size 0))
  else do
    let reduced ← Outcome.collect groups accumulateMatrices
    pure (reduceLifted size reduced)

/-- The values `DeepPoly::from_evals` sends for one point. -/
def sentEvals (batchedEvals : List (List (Fin N -> EF))) (alignment : Nat) (point : Fin N) : List EF :=
  (iterAligned batchedEvals alignment).map (· point)

/-- `DeepPoly::from_evals`, with the challenges it samples. -/
def fromEvals (alignment : Nat) (groups : List (List (Matrix F)))
    (batchedEvals : List (List (Fin N -> EF))) (quotients : PointQuotients EF N)
    (challengeColumns challengePoints : EF) : Outcome ε (List EF) := do
  let fReducedAtPoints :=
    hornerAcc 0 (fun _ => challengeColumns) (iterAligned batchedEvals alignment)
  let alignedWidths := groups.flatten.map (fun matrix => alignedLen matrix.width alignment)
  let coeffs := negColumnCoeffs challengeColumns alignedWidths
  let reduced ← negFReduced quotients.pointQuotient.length (groupCoeffs groups coeffs)
  pure (table (min reduced.length quotients.pointQuotient.length) (fun index =>
    ∑ point : Fin N, challengePoints ^ (point : Nat) * quotients.pointQuotient.getD index 0 point *
      (fReducedAtPoints point + reduced.getD index 0)))

end DeepPoly

/-! ## The verifier -/

/-- The errors of `DeepOracle::open_batch` past the Merkle openings. -/
inductive DeepError where
  | invalidOpening (tree treeIndex : Nat)
  | evalPointOnDomain (treeIndex : Nat)
  deriving DecidableEq, Repr

/-- `DeepOracle`. -/
structure DeepOracle (F EF : Type) [Field F] [TwoAdicField F] where
  domain : LiftedDomain F
  reducedOpenings : List (EF × EF)
  challengeColumns : EF
  challengePoints : EF

namespace DeepOracle

/-- The reduced openings of `DeepOracle::new`, from the evaluations received for
each point. -/
def reduceOpenings (challengeColumns : EF) (received : List (EF × List EF)) : List (EF × EF) :=
  received.map (fun opening => (opening.1, hornerAcc 0 challengeColumns opening.2))

variable [TwoAdicField F]

/-- The quotient at a point, from the reduced row opened there. -/
def deepEval (oracle : DeepOracle F EF) (treeIndex : Nat)
    (reducedRow : EF) : Outcome DeepError EF := do
  let rowPoint := algebraMap F EF (Coset.pointAt oracle.domain.ldeCoset treeIndex)
  let terms ← Outcome.collect oracle.reducedOpenings.zipIdx (fun opening =>
    if opening.1.1 - rowPoint = 0 then .err (.evalPointOnDomain treeIndex)
    else .ok (oracle.challengePoints ^ opening.2 * (opening.1.2 - reducedRow) * (opening.1.1 - rowPoint)⁻¹))
  pure terms.sum

/-- `DeepOracle::open_batch`, with the rows that each group opened, in
commitment order. -/
def openBatch (oracle : DeepOracle F EF) (treeIndices : List Nat)
    (openedGroups : List (Nat -> Option (List F))) : Outcome DeepError (List (Nat × EF)) := do
  let reducedRows ← openedGroups.zipIdx.foldlM (fun reduced group =>
    Outcome.collect reduced (fun entry => do
      let row ← Outcome.okOr (group.1 entry.1) (.invalidOpening group.2 entry.1)
      pure (entry.1, hornerAcc entry.2 oracle.challengeColumns (row.map (algebraMap F EF)))))
    (treeIndices.map (fun treeIndex => (treeIndex, 0)))
  Outcome.collect reducedRows (fun entry => do
    let value ← oracle.deepEval entry.1 entry.2
    pure (entry.1, value))

end DeepOracle

end MidenVm.Stark
