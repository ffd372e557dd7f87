import MidenVm.Core.RootsOfUnity
import MidenVm.Stark.DeepSpec

namespace MidenVm.Stark

open Foundation LiftedDomain
open Foundation.TwoAdicField

/-!
# Sampled points are safe everywhere

The verifier and the prover divide in many places by values that depend on the
sampled point: in the row selectors of every trace, in the recombination of the
quotient, in the DEEP quotient and in the interpolation.  The three tests of
the sampler are enough for all of them.
-/

variable {F EF : Type} [Field F] [TwoAdicField F] [Field EF] [Algebra F EF] [DecidableEq F] [DecidableEq EF]
  {ε : Type}

omit [DecidableEq F] in
/-- The quotient exists at every index when all opened points are off the coset. -/
theorem DeepOracle.deepEval_returns (oracle : DeepOracle F EF)
    (outside : forall opening, opening ∈ oracle.reducedOpenings -> oracle.domain.OutOfDomain opening.1)
    (treeIndex : Nat) (reducedRow : EF) : ∃ value, oracle.deepEval treeIndex reducedRow =
      .ok value := by
  have each : forall opening, opening ∈ oracle.reducedOpenings.zipIdx -> ∃ term,
      (if opening.1.1 - algebraMap F EF (Coset.pointAt oracle.domain.ldeCoset treeIndex) = 0 then
        .err (.evalPointOnDomain treeIndex)
      else .ok (oracle.challengePoints ^ opening.2 * (opening.1.2 - reducedRow) *
        (opening.1.1 - algebraMap F EF (Coset.pointAt oracle.domain.ldeCoset treeIndex))⁻¹) :
          Outcome DeepError EF) = .ok term := by
    intro opening member
    have held := outside opening.1 (List.fst_mem_of_mem_zipIdx member)
    rw [if_neg (held.sub_pointAt_ne_zero treeIndex)]
    exact ⟨_, rfl⟩
  rcases Outcome.collect_returns each with ⟨values, collected⟩
  rw [deepEval, collected]
  exact ⟨_, rfl⟩

/-- The shift of the largest coset is seven, and a power of seven is outside. -/
theorem forty_nine_outside : ((49 : Felt) * (canonicalShift Felt 32)⁻¹) ^ 2 ^ 32 ≠ 1 := by
  have shift : (49 : Felt) * (canonicalShift Felt 32)⁻¹ = 7 := by
    rw [canonicalShift, show (2 : Nat) ^ (twoAdicity Felt - 32) = 1 from rfl, pow_one]
    exact (mul_inv_eq_iff_eq_mul₀ (by decide)).mpr (by decide)
  rw [shift]
  exact generator_pow_ne_one (F := Felt)

/-- Nothing that depends on a sampled point is divided by zero: not the
selectors of a sub-domain, the weights of the quotient or their sum, the DEEP
denominators at the point and at its next row, nor the interpolation there.
Nor are the selectors and vanishing values on an evaluation coset. -/
theorem ood_divisions_return {logTrace logBlowup : Nat} {domain : LiftedDomain F}
    (built : LiftedDomain.tryCanonical logTrace logBlowup = .ok domain) {samples : List EF} {z : EF}
    (sampled : domain.sampleOodPoint samples = some z) :
    (forall smaller sub, domain.trySubDomain smaller = .ok sub ->
      ∃ selectors, (sub.selectorsAt z : Outcome ε (Selectors EF)) = .ok selectors) ∧
    (forall logDegree evaluation,
      (EvaluationDomain.new domain logDegree : Outcome ε (EvaluationDomain F)) = .ok evaluation ->
      forall chunks : List EF, chunks.length = evaluation.quotientDegree ->
        ∃ value, (evaluation.reconstructQuotient z chunks : Outcome ε EF) = .ok value) ∧
    (forall oracle : DeepOracle F EF, oracle.domain = domain ->
      (forall opening, opening ∈ oracle.reducedOpenings ->
        opening.1 = z ∨ opening.1 = z * algebraMap F EF (Coset.generator domain.traceSubgroup)) ->
      forall treeIndex reducedRow, ∃ value, oracle.deepEval treeIndex reducedRow = .ok value) ∧
    (forall groups, PointQuotients.Fits groups domain.logBlowup domain.logLdeHeight ->
      ∃ quotients evals,
        (PointQuotients.new ![z, z * algebraMap F EF (Coset.generator domain.traceSubgroup)]
          (Coset.bitReversedPoints domain.ldeCoset) : Outcome ε _) = .ok quotients ∧
        (quotients.batchEvalLifted groups (Coset.bitReversedPoints domain.ldeCoset) domain.logBlowup
          : Outcome ε _) = .ok evals) ∧
    (forall smaller sub logDegree evaluation, domain.trySubDomain smaller = .ok sub ->
      (EvaluationDomain.new sub logDegree : Outcome ε (EvaluationDomain F)) = .ok evaluation ->
        (∃ selectors, (evaluation.selectors : Outcome ε (Selectors (List F))) = .ok selectors) ∧
        ∃ evals, (evaluation.invVanishingEvals : Outcome ε (List F)) = .ok evals) := by
  have outside := outOfDomain_of_sampled sampled
  have ratio := (tryCanonical_eq_ok built).2.2
  refine ⟨?_, ?_, ?_, ?_, ?_⟩
  · intro smaller sub derived
    refine sub.selectorsAt_returns ?_
    rw [lift_pow_trace derived, ratio, pow_zero, pow_one]
    exact outside.trace
  · intro logDegree evaluation made chunks count
    have parent : evaluation.domain = domain := EvaluationDomain.domain_of_new made
    rcases evaluation.reconstructQuotient_eq (ε := ε) (parent ▸ outside) count with ⟨_, _, value⟩
    exact ⟨_, value⟩
  · intro oracle same opened treeIndex reducedRow
    refine oracle.deepEval_returns ?_ treeIndex reducedRow
    intro opening member
    rw [same]
    rcases opened opening member with here | next
    · exact here ▸ outside
    · exact next ▸ outside.next
  · intro groups fits
    have points : PointQuotients.Outside domain
        ![z, z * algebraMap F EF (Coset.generator domain.traceSubgroup)] := by
      constructor
      · exact Fin.forall_fin_two.mpr ⟨outside.ne_zero, outside.next.ne_zero⟩
      · exact Fin.forall_fin_two.mpr ⟨outside.lde, outside.next.lde⟩
    exact ⟨_, _, PointQuotients.new_eq points.apart, PointQuotients.batchEvalLifted_eq points.ne_zero fits⟩
  · intro smaller sub logDegree evaluation _ _
    exact ⟨evaluation.selectors_returns, evaluation.invVanishingEvals_returns⟩

/-- On the largest coset of the base field, with a trace of one row, the point
`49` is taken. -/
theorem ood_divisions_return_largest :
    (LiftedDomain.tryCanonical 0 32 = .ok (LiftedDomain.ofSizes (F := Felt) 0 32 0 (by decide) le_rfl)) ∧
    (LiftedDomain.ofSizes (F := Felt) 0 32 0 (by decide) le_rfl).sampleOodPoint [(49 : Felt)] = some 49 ∧
    ∃ selectors, ((LiftedDomain.ofSizes (F := Felt) 0 32 0 (by decide) le_rfl).selectorsAt (49 : Felt) :
      Outcome Unit (Selectors Felt)) = .ok selectors := by
  have built : tryCanonical 0 32 = .ok (ofSizes (F := Felt) 0 32 0 (by decide) le_rfl) :=
    dif_pos (by decide)
  have sampled : (ofSizes (F := Felt) 0 32 0 (by decide) le_rfl).sampleOodPoint [(49 : Felt)]
      = some 49 := by
    have apart : ((49 : Felt) * 1) ^ 2 ^ 0 ≠ 1 := by decide
    refine List.find?_cons_of_pos ?_
    rw [acceptsOod, Bool.and_eq_true, Bool.and_eq_true, Bool.not_eq_true', Bool.not_eq_true']
    exact ⟨⟨by decide, decide_eq_false apart⟩, decide_eq_false forty_nine_outside⟩
  refine ⟨built, sampled, (ood_divisions_return built sampled).1 0 _ ?_⟩
  exact dif_pos (le_refl 0)

end MidenVm.Stark
