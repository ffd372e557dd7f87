import MidenVm.Foundation.BitReversal
import MidenVm.Foundation.Outcome
import MidenVm.Foundation.TwoAdic

namespace MidenVm.Stark

open Foundation
open Foundation.TwoAdicField

/-!
# Domains: subgroup, coset, lifted domain

A trace lives on a subgroup of order a power of two, and its low-degree
extension on a larger coset.  A lifted domain holds both, with a shift of the
coset that depends on nothing but its order.  Shorter traces have sub-domains;
their polynomials are taken at a power of the point, the lift ratio.

Divisions abort on zero, as those of the field crate do, so that "no division
by zero" is a statement about the functions below.
-/

section Division

variable {ε K : Type} [Field K] [DecidableEq K]

/-- `Field::inverse`. -/
def inverse (value : K) : Outcome ε K := if value = 0 then .panic else .ok value⁻¹

/-- Division of field elements. -/
def divide (value divisor : K) : Outcome ε K := do
  let inverted ← inverse divisor
  pure (value * inverted)

/-- `batch_multiplicative_inverse`. -/
def batchInverse (values : List K) : Outcome ε (List K) :=
  if 0 ∈ values then .panic else .ok (values.map (·⁻¹))

end Division

/-- `reverse_slice_index_bits`. -/
def reverseSliceIndexBits {α : Type} [Zero α] (values : List α) : List α :=
  table values.length (fun index => values.getD (reverseBits values.length.log2 index) 0)

/-! ## The coset trait -/

/-- `Coset`: a multiplicative shift and a root of unity of order `2^log_size`. -/
class Coset (C : Type) (F : outParam Type) [Field F] where
  logSize : C -> Nat
  shift : C -> F
  shiftInverse : C -> F
  generator : C -> F
  primitive : forall coset, IsPrimitiveRoot (generator coset) (2 ^ logSize coset)
  shift_mul_shiftInverse : forall coset, shift coset * shiftInverse coset = 1

namespace Coset

variable {C F : Type} [Field F] [Coset C F] (coset : C)

/-- `Coset::size`. -/
def size : Nat := 2 ^ logSize coset

/-- `Coset::generator_inverse`. -/
def generatorInverse {ε : Type} [DecidableEq F] : Outcome ε F := inverse (generator coset)

/-- `Coset::point_at`. -/
def pointAt (index : Nat) : F := shift coset * generator coset ^ index

/-- `Coset::points`. -/
def points : List F := table (size coset) (pointAt coset)

/-- `Coset::bit_reversed_points`. -/
def bitReversedPoints : List F := reverseSliceIndexBits (points coset)

variable {EF : Type} [Field EF] [Algebra F EF]

/-- `Coset::vanishing_at`. -/
def vanishingAt (z : EF) : EF :=
  (z * algebraMap F EF (shiftInverse coset)) ^ 2 ^ logSize coset - 1

/-- `Coset::contains`. -/
def contains [DecidableEq EF] (z : EF) : Bool :=
  decide ((z * algebraMap F EF (shiftInverse coset)) ^ 2 ^ logSize coset = 1)

end Coset

variable {F : Type} [Field F] [TwoAdicField F]

/-! ## Subgroups and cosets -/

/-- `TwoAdicSubgroup`: its order divides that of the unit group. -/
structure TwoAdicSubgroup (F : Type) [Field F] [TwoAdicField F] where
  logSize : Nat
  bound : logSize ≤ twoAdicity F

namespace TwoAdicSubgroup

/-- `TwoAdicSubgroup::new`. -/
def new {ε : Type} (logSize : Nat) : Outcome ε (TwoAdicSubgroup F) :=
  if bound : logSize ≤ twoAdicity F then .ok ⟨logSize, bound⟩ else .panic

/-- `TwoAdicSubgroup::shrink`. -/
def shrink {ε : Type} (subgroup : TwoAdicSubgroup F) (logFactor : Nat) : Outcome ε (TwoAdicSubgroup F) :=
  if logFactor ≤ subgroup.logSize then new (subgroup.logSize - logFactor) else .panic

instance : Coset (TwoAdicSubgroup F) F where
  logSize subgroup := subgroup.logSize
  shift _ := 1
  shiftInverse _ := 1
  generator subgroup := twoAdicGenerator subgroup.logSize
  primitive subgroup := TwoAdicField.primitive subgroup.logSize subgroup.bound
  shift_mul_shiftInverse _ := mul_one 1

end TwoAdicSubgroup

/-- `TwoAdicCoset`: the shift is not zero, and its inverse is cached. -/
structure TwoAdicCoset (F : Type) [Field F] [TwoAdicField F] where
  subgroup : TwoAdicSubgroup F
  shift : F
  shift_ne_zero : shift ≠ 0

namespace TwoAdicCoset

instance : Coset (TwoAdicCoset F) F where
  logSize coset := coset.subgroup.logSize
  shift coset := coset.shift
  shiftInverse coset := coset.shift⁻¹
  generator coset := twoAdicGenerator coset.subgroup.logSize
  primitive coset := TwoAdicField.primitive coset.subgroup.logSize coset.subgroup.bound
  shift_mul_shiftInverse coset := mul_inv_cancel₀ coset.shift_ne_zero

end TwoAdicCoset

/-! ## Lifted domains -/

/-- `DomainError`. -/
inductive DomainError where
  | ldeOrderTooLarge (logLdeOrder bound : Nat)
  | subDomainTooLarge (smaller parent : Nat)
  | constraintDegreeTooHigh (logQuotient logBlowup : Nat)
  deriving DecidableEq, Repr

/-- The shift of the evaluation coset of an order. -/
def canonicalShift (F : Type) [Field F] [TwoAdicField F] (logLdeOrder : Nat) : F :=
  generator ^ 2 ^ (twoAdicity F - logLdeOrder)

theorem canonicalShift_ne_zero (logLdeOrder : Nat) : canonicalShift F logLdeOrder ≠ 0 :=
  pow_ne_zero _ generator_ne_zero

/-- `LiftedDomain`. -/
structure LiftedDomain (F : Type) [Field F] [TwoAdicField F] where
  traceSubgroup : TwoAdicSubgroup F
  ldeCoset : TwoAdicCoset F
  logLiftRatio : Nat
  trace_le_lde : traceSubgroup.logSize ≤ ldeCoset.subgroup.logSize
  shift_eq : ldeCoset.shift = canonicalShift F ldeCoset.subgroup.logSize

/-- `Selectors`. -/
structure Selectors (T : Type) where
  isFirstRow : T
  isLastRow : T
  isTransition : T

namespace LiftedDomain

/-- The trace subgroup and the evaluation coset of given orders. -/
def ofSizes (logTraceHeight logLdeHeight logLiftRatio : Nat) (below : logTraceHeight ≤ logLdeHeight)
    (bound : logLdeHeight ≤ twoAdicity F) : LiftedDomain F where
  traceSubgroup := ⟨logTraceHeight, below.trans bound⟩
  ldeCoset := ⟨⟨logLdeHeight, bound⟩, canonicalShift F logLdeHeight, canonicalShift_ne_zero _⟩
  logLiftRatio := logLiftRatio
  trace_le_lde := below
  shift_eq := rfl

/-- `LiftedDomain::try_canonical`. -/
def tryCanonical (logTraceHeight logBlowup : Nat) : Outcome DomainError (LiftedDomain F) :=
  if inside : logTraceHeight + logBlowup ≤ min (twoAdicity F) 63 then
    .ok (ofSizes logTraceHeight (logTraceHeight + logBlowup) 0 (Nat.le_add_right _ _)
      (inside.trans (Nat.min_le_left _ _)))
  else .err (.ldeOrderTooLarge (logTraceHeight + logBlowup) (min (twoAdicity F) 63))

variable (domain : LiftedDomain F)

/-- `LiftedDomain::log_trace_height`. -/
def logTraceHeight : Nat := domain.traceSubgroup.logSize

/-- `LiftedDomain::log_lde_height`. -/
def logLdeHeight : Nat := domain.ldeCoset.subgroup.logSize

/-- `LiftedDomain::log_blowup`. -/
def logBlowup : Nat := domain.logLdeHeight - domain.logTraceHeight

/-- `LiftedDomain::try_sub_domain`. -/
def trySubDomain (smaller : Nat) : Outcome DomainError (LiftedDomain F) :=
  if below : smaller ≤ domain.logTraceHeight then
    .ok (ofSizes smaller (smaller + domain.logBlowup)
      (domain.logLiftRatio + (domain.logTraceHeight - smaller)) (Nat.le_add_right _ _) (by
        have order := domain.trace_le_lde
        have inside := domain.ldeCoset.subgroup.bound
        unfold logBlowup logLdeHeight logTraceHeight at *
        omega))
  else .err (.subDomainTooLarge smaller domain.logTraceHeight)

variable {EF : Type} [Field EF] [Algebra F EF] [DecidableEq EF]

/-- `LiftedDomain::selectors_at`. -/
def selectorsAt {ε : Type} [DecidableEq F] (z : EF) :
    Outcome ε (Selectors EF) := do
  let zLift := z ^ 2 ^ domain.logLiftRatio
  let vanishing := Coset.vanishingAt domain.traceSubgroup zLift
  let omegaHInv ← Coset.generatorInverse domain.traceSubgroup
  let isFirstRow ← divide vanishing (zLift - 1)
  let isLastRow ← divide vanishing (zLift - algebraMap F EF omegaHInv)
  pure ⟨isFirstRow, isLastRow, zLift - algebraMap F EF omegaHInv⟩

/-- The candidates that `LiftedDomain::sample_ood_point` takes. -/
def acceptsOod (candidate : EF) : Bool :=
  decide (candidate ≠ 0) && !Coset.contains domain.traceSubgroup candidate &&
    !Coset.contains domain.ldeCoset candidate

/-- `LiftedDomain::sample_ood_point`, on the elements that the channel yields. -/
def sampleOodPoint (samples : List EF) : Option EF :=
  samples.find? domain.acceptsOod

end LiftedDomain

/-! ## Evaluation domains -/

/-- `EvaluationDomain`: the coset on which a quotient is evaluated. -/
structure EvaluationDomain (F : Type) [Field F] [TwoAdicField F] where
  domain : LiftedDomain F
  logQuotientDegree : Nat
  degree_le_blowup : logQuotientDegree ≤ domain.logBlowup

namespace EvaluationDomain

/-- `EvaluationDomain::new`. -/
def new {ε : Type} (domain : LiftedDomain F) (logQuotientDegree : Nat) : Outcome ε (EvaluationDomain F) :=
  if fits : logQuotientDegree ≤ domain.logBlowup then .ok ⟨domain, logQuotientDegree, fits⟩
  else .panic

variable (domain : EvaluationDomain F)

/-- `EvaluationDomain::quotient_degree`. -/
def quotientDegree : Nat := 2 ^ domain.logQuotientDegree

/-- `EvaluationDomain::log_trace_height`. -/
def logTraceHeight : Nat := domain.domain.logTraceHeight

theorem logSize_le :
    domain.logTraceHeight + domain.logQuotientDegree ≤ domain.domain.logLdeHeight := by
  have fits := domain.degree_le_blowup
  have order := domain.domain.trace_le_lde
  unfold LiftedDomain.logBlowup LiftedDomain.logLdeHeight at fits
  unfold logTraceHeight LiftedDomain.logTraceHeight LiftedDomain.logLdeHeight at *
  omega

/-- `EvaluationDomain::subgroup`. -/
def subgroup : TwoAdicSubgroup F where
  logSize := domain.logTraceHeight + domain.logQuotientDegree
  bound := domain.logSize_le.trans domain.domain.ldeCoset.subgroup.bound

instance : Coset (EvaluationDomain F) F where
  logSize domain := domain.logTraceHeight + domain.logQuotientDegree
  shift domain := domain.domain.ldeCoset.shift
  shiftInverse domain := domain.domain.ldeCoset.shift⁻¹
  generator domain := twoAdicGenerator (domain.logTraceHeight + domain.logQuotientDegree)
  primitive domain := TwoAdicField.primitive _ domain.subgroup.bound
  shift_mul_shiftInverse domain := mul_inv_cancel₀ domain.domain.ldeCoset.shift_ne_zero

variable {ε : Type} [DecidableEq F]

/-- A row selector of `EvaluationDomain::selectors`. -/
def singlePointSelector (xs zhPeriodic : List F) (basisPoint : F) : Outcome ε (List F) := do
  let invs ← batchInverse (xs.map (· - basisPoint))
  pure (table xs.length (fun index =>
    zhPeriodic.getD (index % zhPeriodic.length) 0 * invs.getD index 0))

/-- `EvaluationDomain::selectors`. -/
def selectors : Outcome ε (Selectors (List F)) := do
  let sPowN := Coset.shift domain ^ 2 ^ domain.logTraceHeight
  let blowupSubgroup ← domain.subgroup.shrink domain.logTraceHeight
  let zhPeriodic := table domain.quotientDegree
    (fun index => sPowN * Coset.generator blowupSubgroup ^ index - 1)
  let xs := Coset.points domain
  let omegaHInv ← Coset.generatorInverse domain.domain.traceSubgroup
  let isFirstRow ← singlePointSelector xs zhPeriodic 1
  let isLastRow ← singlePointSelector xs zhPeriodic omegaHInv
  pure ⟨isFirstRow, isLastRow, xs.map (· - omegaHInv)⟩

/-- `EvaluationDomain::inv_vanishing_evals`. -/
def invVanishingEvals : Outcome ε (List F) := do
  let sPowN := Coset.shift domain ^ 2 ^ domain.logTraceHeight
  let omegaD ← domain.subgroup.shrink domain.logTraceHeight
  batchInverse (table domain.quotientDegree (fun index => sPowN * Coset.generator omegaD ^ index - 1))

omit [DecidableEq F] in
/-- The loop of `reconstruct_quotient` over the chunks: the weighted sum and
the sum of the weights. -/
def weighChunks {EF : Type} [Field EF] [Algebra F EF] [DecidableEq EF] (u : EF) (omegaS : F) :
    List EF -> F -> EF × EF -> Outcome ε (EF × EF)
  | [], _, sums => .ok sums
  | chunk :: rest, omegaST, sums => do
      let inverted ← inverse (u - algebraMap F EF omegaST)
      let weight := inverted * algebraMap F EF omegaST
      weighChunks u omegaS rest (omegaST * omegaS) (sums.1 + weight * chunk, sums.2 + weight)

omit [DecidableEq F] in
/-- `EvaluationDomain::reconstruct_quotient`. -/
def reconstructQuotient {EF : Type} [Field EF] [Algebra F EF] [DecidableEq EF]
    (z : EF) (chunks : List EF) : Outcome ε EF := do
  Outcome.require (chunks.length = domain.quotientDegree)
  let omegaS ← domain.subgroup.shrink domain.logTraceHeight
  let u := (z * algebraMap F EF (Coset.shiftInverse domain)) ^ 2 ^ domain.logTraceHeight
  let sums ← weighChunks u (Coset.generator omegaS) chunks 1 (0, 0)
  let inverted ← inverse sums.2
  pure (sums.1 * inverted)

end EvaluationDomain

end MidenVm.Stark
