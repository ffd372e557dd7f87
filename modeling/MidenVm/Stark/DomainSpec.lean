import MidenVm.Stark.Domain

namespace MidenVm.Stark

open Foundation List Outcome Coset
open Foundation.TwoAdicField

/-!
# Divisions on the domains

A sampled point is not zero, no root of unity of the order of the trace, and
not on the evaluation coset.  All other excluded points reduce to these three:
the trace subgroup of a sub-domain is reached by the lift, a quotient coset
lies in the evaluation coset, and the shift of a coset by a root of unity is
the coset.

On the side of the prover the points of an evaluation coset are never roots of
unity: the order of the generator has an odd part.
-/

section Division

variable {ε K : Type} [Field K] [DecidableEq K]

theorem inverse_of_ne_zero {value : K} (apart : value ≠ 0) :
    (inverse value : Outcome ε K) = .ok value⁻¹ := if_neg apart

theorem divide_of_ne_zero (value : K) {divisor : K} (apart : divisor ≠ 0) :
    (divide value divisor : Outcome ε K) = .ok (value * divisor⁻¹) := by
  rw [divide, inverse_of_ne_zero apart]
  rfl

theorem batchInverse_of_ne_zero {values : List K}
    (apart : forall value, value ∈ values -> value ≠ 0) :
    (batchInverse values : Outcome ε (List K)) = .ok (values.map (·⁻¹)) :=
  if_neg (fun member => apart 0 member rfl)

end Division

theorem reverseSliceIndexBits_table {α : Type} [Zero α] (log : Nat) (entry : Nat -> α) :
    reverseSliceIndexBits (table (2 ^ log) entry) =
      table (2 ^ log) (fun index => entry (reverseBits log index)) := by
  rw [reverseSliceIndexBits, length_table, Nat.log2_two_pow]
  exact table_congr (fun index _ => getD_table (reverseBits_lt _ _) _ _)

/-! ## Cosets -/

variable {index : Nat}

namespace Coset

variable {C F EF : Type} [Field F] [Field EF] [Algebra F EF] [Coset C F]

section Coset

variable (coset : C)

theorem size_eq : size coset = 2 ^ logSize coset := rfl

theorem length_points : (points coset).length = 2 ^ logSize coset := length_table _ _

theorem length_bitReversedPoints : (bitReversedPoints coset).length = 2 ^ logSize coset := by
  rw [bitReversedPoints, reverseSliceIndexBits, length_table, length_points]

/-- The points in stored order. -/
theorem bitReversedPoints_eq : bitReversedPoints coset =
    table (2 ^ logSize coset) (fun index => pointAt coset (reverseBits (logSize coset) index)) := by
  rw [bitReversedPoints, points, size_eq, reverseSliceIndexBits_table]

theorem getD_bitReversedPoints (inside : index < 2 ^ logSize coset) :
    (bitReversedPoints coset).getD index 0 = pointAt coset (reverseBits (logSize coset) index) := by
  rw [bitReversedPoints_eq, getD_table inside]

/-- The points of a coset are its shift, up to roots of unity. -/
theorem pointAt_pow (index : Nat) :
    pointAt coset index ^ 2 ^ logSize coset = shift coset ^ 2 ^ logSize coset := by
  rw [pointAt, mul_pow, root_pow_pow (primitive coset), mul_one]

/-- A value outside a coset differs from its points. -/
theorem sub_pointAt_ne_zero {w : EF}
    (outside : (w * algebraMap F EF (shiftInverse coset)) ^ 2 ^ logSize coset ≠ 1) (index : Nat) :
    w - algebraMap F EF (pointAt coset index) ≠ 0 := by
  intro same
  refine outside ?_
  rw [sub_eq_zero.mp same, ← map_mul, ← map_pow, mul_pow, pointAt_pow, ← mul_pow,
    shift_mul_shiftInverse, one_pow, map_one]

end Coset

end Coset

variable {F EF : Type} [Field F] [TwoAdicField F] [Field EF] [Algebra F EF]

/-! ## Stored points -/

variable {domain : LiftedDomain F} {z : EF} {low more : Nat}

/-- The point at a stored position of the evaluation coset of an order. -/
def storedPoint (F : Type) [Field F] [TwoAdicField F] (log index : Nat) : F :=
  canonicalShift F log * twoAdicGenerator log ^ reverseBits log index

section Bound

variable (bound : low + more ≤ twoAdicity F)
include bound

theorem canonicalShift_pow :
    canonicalShift F (low + more) ^ 2 ^ more = canonicalShift F low := by
  rw [canonicalShift, canonicalShift, ← pow_mul, ← pow_add]
  congr 2
  omega

/-- Neighbours differ by roots of unity of the order of their number. -/
theorem storedPoint_block (block : Nat) {offset : Nat} (small : offset < 2 ^ more) :
    storedPoint F (low + more) (block * 2 ^ more + offset) =
      storedPoint F (low + more) (block * 2 ^ more) * twoAdicGenerator more ^ reverseBits more offset := by
  have root : (twoAdicGenerator (low + more) : F) ^ 2 ^ low = twoAdicGenerator more := by
    rw [Nat.add_comm low more]
    exact twoAdicGenerator_pow more low (Nat.add_comm low more ▸ bound)
  rw [storedPoint, storedPoint, reverseBits_add _ _ _ _ small, reverseBits_mul_pow, pow_add,
    Nat.mul_comm, pow_mul, root, mul_comm (_ ^ _) (_ ^ _), mul_assoc]

/-- The lift takes a block of points to one point of the smaller coset. -/
theorem storedPoint_lift (block : Nat) :
    storedPoint F (low + more) (block * 2 ^ more) ^ 2 ^ more = storedPoint F low block := by
  rw [storedPoint, reverseBits_mul_pow, mul_pow, canonicalShift_pow bound, ← pow_mul, Nat.mul_comm,
    pow_mul, twoAdicGenerator_pow low more bound, storedPoint]

theorem storedPoint_pow (index : Nat) :
    storedPoint F (low + more) index ^ 2 ^ more = storedPoint F low (index / 2 ^ more) := by
  have split := storedPoint_block bound (index / 2 ^ more) (Nat.mod_lt index (Nat.two_pow_pos more))
  have order : (twoAdicGenerator more : F) ^ 2 ^ more = 1 :=
    twoAdicGenerator_pow_one ((Nat.le_add_left _ _).trans bound)
  rw [Nat.div_add_mod'] at split
  rw [split, mul_pow, storedPoint_lift bound, ← pow_mul, Nat.mul_comm, pow_mul, order,
    one_pow, mul_one]

end Bound

/-- The first points of a coset form a coset of smaller order. -/
theorem storedPoint_first {high low : Nat} (bound : high + low ≤ twoAdicity F)
    (small : index < 2 ^ low) : storedPoint F (high + low) index =
      canonicalShift F (high + low) * twoAdicGenerator low ^ reverseBits low index := by
  have root : (twoAdicGenerator (high + low) : F) ^ 2 ^ high = twoAdicGenerator low := by
    rw [Nat.add_comm high low]
    exact twoAdicGenerator_pow low high (Nat.add_comm high low ▸ bound)
  have split := reverseBits_add high low 0 index small
  rw [Nat.zero_mul, Nat.zero_add, reverseBits_zero, Nat.add_zero] at split
  rw [storedPoint, split, Nat.mul_comm, pow_mul, root]

/-! ## Sampled points -/

namespace LiftedDomain

theorem pointAt_ldeCoset (domain : LiftedDomain F) (index : Nat) :
    pointAt domain.ldeCoset (reverseBits domain.logLdeHeight index) =
      storedPoint F domain.logLdeHeight index := by
  rw [storedPoint, pointAt, show shift domain.ldeCoset = domain.ldeCoset.shift from rfl,
    domain.shift_eq]
  rfl

/-- What the sampler tests. -/
structure OutOfDomain (domain : LiftedDomain F) (z : EF) : Prop where
  ne_zero : z ≠ 0
  trace : z ^ 2 ^ domain.logTraceHeight ≠ 1
  lde : (z * algebraMap F EF domain.ldeCoset.shift⁻¹) ^ 2 ^ domain.logLdeHeight ≠ 1

theorem outOfDomain_of_sampled [DecidableEq EF] {samples : List EF}
    (sampled : domain.sampleOodPoint samples = some z) : domain.OutOfDomain z := by
  have accepted := find?_some sampled
  rw [acceptsOod, Bool.and_eq_true, Bool.and_eq_true, decide_eq_true_eq, Bool.not_eq_true',
    Bool.not_eq_true', Coset.contains, Coset.contains, decide_eq_false_iff_not,
    decide_eq_false_iff_not] at accepted
  rcases accepted with ⟨⟨ne_zero, trace⟩, lde⟩
  refine ⟨ne_zero, ?_, lde⟩
  have unshifted : z * algebraMap F EF (shiftInverse domain.traceSubgroup) = z := by
    rw [show shiftInverse domain.traceSubgroup = 1 from rfl, map_one, mul_one]
  rwa [unshifted] at trace

namespace OutOfDomain

/-- The next row of a point is outside as well. -/
theorem next (outside : domain.OutOfDomain z) :
    domain.OutOfDomain (z * algebraMap F EF (generator domain.traceSubgroup)) := by
  have inside := domain.traceSubgroup.bound
  have order : (generator domain.traceSubgroup : F) ^ 2 ^ domain.logTraceHeight = 1 :=
    twoAdicGenerator_pow_one inside
  have larger : (generator domain.traceSubgroup : F) ^ 2 ^ domain.logLdeHeight = 1 := by
    rcases pow_dvd_pow 2 domain.trace_le_lde with ⟨rest, split⟩
    have parts : 2 ^ domain.logLdeHeight = 2 ^ domain.logTraceHeight * rest := split
    rw [parts, pow_mul, order, one_pow]
  refine ⟨?_, ?_, ?_⟩
  · refine mul_ne_zero outside.ne_zero ?_
    rw [Ne, map_eq_zero_iff _ (algebraMap F EF).injective]
    exact twoAdicGenerator_ne_zero inside
  · rw [mul_pow, ← map_pow, order, map_one, mul_one]
    exact outside.trace
  · rw [mul_right_comm, mul_pow, ← map_pow _ (generator domain.traceSubgroup), larger, map_one,
      mul_one]
    exact outside.lde

/-- The distances to the points of the evaluation coset. -/
theorem sub_pointAt_ne_zero (outside : domain.OutOfDomain z) (index : Nat) :
    z - algebraMap F EF (pointAt domain.ldeCoset index) ≠ 0 :=
  Coset.sub_pointAt_ne_zero domain.ldeCoset outside.lde index

end OutOfDomain

variable [DecidableEq F] [DecidableEq EF] {ε : Type}

/-- The selectors divide by nothing that vanishes where the lifted point is no
root of unity of the order of the trace. -/
theorem selectorsAt_returns (domain : LiftedDomain F)
    (outside : (z ^ 2 ^ domain.logLiftRatio) ^ 2 ^ domain.logTraceHeight ≠ 1) :
    ∃ selectors, (domain.selectorsAt z : Outcome ε (Selectors EF)) = .ok selectors := by
  have inside : domain.logTraceHeight ≤ twoAdicity F := domain.traceSubgroup.bound
  have root : (algebraMap F EF (twoAdicGenerator domain.logTraceHeight)⁻¹) ^ 2 ^ domain.logTraceHeight
      = 1 := by
    rw [← map_pow, inv_pow, twoAdicGenerator_pow_one inside, inv_one, map_one]
  have inverted : (generatorInverse domain.traceSubgroup : Outcome ε F)
      = .ok (twoAdicGenerator domain.logTraceHeight)⁻¹ :=
    inverse_of_ne_zero (twoAdicGenerator_ne_zero inside)
  rw [selectorsAt, inverted, ok_bind,
    divide_of_ne_zero _ (sub_ne_zero_of_pow outside (one_pow _)), ok_bind,
    divide_of_ne_zero _ (sub_ne_zero_of_pow outside root)]
  exact ⟨_, rfl⟩

omit [DecidableEq F] [DecidableEq EF] [Algebra F EF] in
/-- The lifted point of a sub-domain is the point of the whole domain, at the
order of the trace. -/
theorem lift_pow_trace {sub : LiftedDomain F} {smaller : Nat}
    (derived : domain.trySubDomain smaller = .ok sub) (z : EF) :
    (z ^ 2 ^ sub.logLiftRatio) ^ 2 ^ sub.logTraceHeight =
      (z ^ 2 ^ domain.logLiftRatio) ^ 2 ^ domain.logTraceHeight := by
  unfold trySubDomain at derived
  split at derived
  · rename_i below
    cases derived
    change (z ^ 2 ^ (domain.logLiftRatio + (domain.logTraceHeight - smaller))) ^ 2 ^ smaller = _
    rw [← pow_mul, ← pow_mul, ← pow_add, ← pow_add, add_assoc, Nat.sub_add_cancel below]
  · cases derived

omit [DecidableEq EF] [DecidableEq F] in
theorem tryCanonical_eq_ok {logTrace logBlowup : Nat}
    (built : tryCanonical logTrace logBlowup = .ok domain) :
    domain.logTraceHeight = logTrace ∧ domain.logBlowup = logBlowup ∧ domain.logLiftRatio = 0 := by
  unfold tryCanonical at built
  split at built
  · cases built
    exact ⟨rfl, Nat.add_sub_cancel_left _ _, rfl⟩
  · cases built

end LiftedDomain

/-! ## Evaluation domains -/

namespace EvaluationDomain

theorem domain_of_new {ε : Type} {logQuotientDegree : Nat} {evaluation : EvaluationDomain F}
    (made : (new domain logQuotientDegree : Outcome ε (EvaluationDomain F)) = .ok evaluation) :
    evaluation.domain = domain := by
  unfold new at made
  split at made
  · cases made
    rfl
  · cases made

/-- The roots of unity of the order of the quotient degree. -/
theorem shrink_subgroup {ε : Type} (domain : EvaluationDomain F) :
    ∃ roots : TwoAdicSubgroup F,
      (domain.subgroup.shrink domain.logTraceHeight : Outcome ε _) = .ok roots ∧
        IsPrimitiveRoot (generator roots) domain.quotientDegree := by
  have size : domain.subgroup.logSize - domain.logTraceHeight = domain.logQuotientDegree :=
    Nat.add_sub_cancel_left _ _
  have bound : domain.subgroup.logSize - domain.logTraceHeight ≤ twoAdicity F :=
    (Nat.sub_le _ _).trans domain.subgroup.bound
  refine ⟨⟨domain.subgroup.logSize - domain.logTraceHeight, bound⟩, ?_, ?_⟩
  · have below : domain.logTraceHeight ≤ domain.subgroup.logSize := Nat.le_add_right _ _
    rw [TwoAdicSubgroup.shrink, if_pos below, TwoAdicSubgroup.new, dif_pos bound]
  · rw [quotientDegree, ← size]
    exact TwoAdicField.primitive _ bound

/-- The shift of the coset is no root of unity of the order of the coset. -/
theorem shift_pow_ne_one (domain : EvaluationDomain F) :
    domain.domain.ldeCoset.shift ^ 2 ^ (domain.logTraceHeight + domain.logQuotientDegree) ≠ 1 := by
  have whole : domain.domain.ldeCoset.shift ^ 2 ^ domain.domain.logLdeHeight ≠ 1 := by
    have order := domain.domain.ldeCoset.subgroup.bound
    rw [domain.domain.shift_eq, canonicalShift, ← pow_mul, ← pow_add]
    have total : twoAdicity F - domain.domain.ldeCoset.subgroup.logSize + domain.domain.logLdeHeight
        = twoAdicity F := Nat.sub_add_cancel order
    rw [total]
    exact generator_pow_ne_one
  exact pow_ne_one_of_dvd (pow_dvd_pow 2 domain.logSize_le) whole

/-- A point of the coset is at a distance from all roots of unity of the order
of the trace. -/
theorem point_sub_ne_zero (domain : EvaluationDomain F) {root : F}
    (one : root ^ 2 ^ domain.logTraceHeight = 1) (index : Nat) :
    pointAt domain index - root ≠ 0 := by
  have outside : pointAt domain index ^ 2 ^ (domain.logTraceHeight + domain.logQuotientDegree) ≠ 1 :=
    pointAt_pow domain index ▸ domain.shift_pow_ne_one
  refine sub_ne_zero_of_pow outside ?_
  rw [pow_add, pow_mul, one, one_pow]

variable {ε : Type} [DecidableEq F]

theorem singlePointSelector_returns (domain : EvaluationDomain F) (zhPeriodic : List F) {root : F}
    (one : root ^ 2 ^ domain.logTraceHeight = 1) :
    ∃ selector, (singlePointSelector (points domain) zhPeriodic root : Outcome ε (List F))
      = .ok selector := by
  rw [singlePointSelector, batchInverse_of_ne_zero]
  · exact ⟨_, rfl⟩
  · intro value member
    rcases mem_map.mp member with ⟨point, held, rfl⟩
    rcases mem_table.mp held with ⟨index, _, rfl⟩
    exact domain.point_sub_ne_zero one index

theorem selectors_returns (domain : EvaluationDomain F) :
    ∃ selectors, (domain.selectors : Outcome ε (Selectors (List F))) = .ok selectors := by
  rcases domain.shrink_subgroup (ε := ε) with ⟨roots, shrunk, _⟩
  have inside : domain.logTraceHeight ≤ twoAdicity F := domain.domain.traceSubgroup.bound
  have inverted : (generatorInverse domain.domain.traceSubgroup : Outcome ε F)
      = .ok (twoAdicGenerator domain.logTraceHeight)⁻¹ :=
    inverse_of_ne_zero (twoAdicGenerator_ne_zero inside)
  have root : ((twoAdicGenerator domain.logTraceHeight : F)⁻¹) ^ 2 ^ domain.logTraceHeight = 1 := by
    rw [inv_pow, twoAdicGenerator_pow_one inside, inv_one]
  rw [selectors, shrunk, ok_bind, inverted, ok_bind]
  rcases domain.singlePointSelector_returns (ε := ε) _ (one_pow _) with ⟨first, firstRan⟩
  rcases domain.singlePointSelector_returns (ε := ε) _ root with ⟨last, lastRan⟩
  rw [firstRan, ok_bind, lastRan]
  exact ⟨_, rfl⟩

theorem invVanishingEvals_returns (domain : EvaluationDomain F) :
    ∃ evals, (domain.invVanishingEvals : Outcome ε (List F)) = .ok evals := by
  rcases domain.shrink_subgroup (ε := ε) with ⟨roots, shrunk, primitive⟩
  rw [invVanishingEvals, shrunk, ok_bind, batchInverse_of_ne_zero]
  · exact ⟨_, rfl⟩
  · intro value member
    rcases mem_table.mp member with ⟨index, _, rfl⟩
    -- To the quotient degree the root drops out, and the shift is left.
    have outside : (shift domain ^ 2 ^ domain.logTraceHeight * generator roots ^ index) ^
        domain.quotientDegree ≠ 1 := by
      rw [mul_pow, root_pow_pow primitive, mul_one, ← pow_mul, quotientDegree, ← pow_add]
      exact domain.shift_pow_ne_one
    exact sub_ne_zero_of_pow outside (one_pow _)

/-! ### The quotient at a point -/

variable [DecidableEq EF]

omit [DecidableEq F] [TwoAdicField F] in
/-- What the loop over the chunks returns. -/
theorem weighChunks_eq {u : EF} {omega : F} (apart : forall t, u - algebraMap F EF omega ^ t ≠ 0)
    (chunks : List EF) (t : Nat) (sums : EF × EF) :
    (weighChunks u omega chunks (omega ^ t) sums : Outcome ε (EF × EF)) = .ok
      (sums.1 + ∑ index ∈ Finset.range chunks.length,
          algebraMap F EF omega ^ (t + index) / (u - algebraMap F EF omega ^ (t + index)) *
            chunks.getD index 0,
        sums.2 + ∑ index ∈ Finset.range chunks.length,
          algebraMap F EF omega ^ (t + index) / (u - algebraMap F EF omega ^ (t + index))) := by
  induction chunks generalizing t sums with
  | nil => simp [weighChunks]
  | cons chunk rest ih =>
    have first := apart t
    rw [weighChunks, map_pow, inverse_of_ne_zero first, ok_bind, ← pow_succ, ih]
    simp only [length_cons, Finset.sum_range_succ', add_zero, getD_cons_zero,
      getD_cons_succ, add_right_comm t 1, add_assoc t _ 1, div_eq_mul_inv,
      mul_comm (algebraMap F EF omega ^ t), add_assoc, add_comm (Finset.sum _ _)]

/-- The point at which the chunks are interpolated. -/
def chunkPoint (domain : EvaluationDomain F) (z : EF) : EF :=
  (z * algebraMap F EF (Coset.shiftInverse domain)) ^ 2 ^ domain.logTraceHeight

omit [DecidableEq F] [DecidableEq EF] in
theorem chunkPoint_pow_ne_one (domain : EvaluationDomain F)
    (outside : domain.domain.OutOfDomain z) : domain.chunkPoint z ^ domain.quotientDegree ≠ 1 := by
  rw [chunkPoint, ← pow_mul, quotientDegree, ← pow_add]
  exact pow_ne_one_of_dvd (pow_dvd_pow 2 domain.logSize_le) outside.lde

omit [DecidableEq F] [DecidableEq EF] in
theorem quotientDegree_ne_zero (domain : EvaluationDomain F) :
    ((domain.quotientDegree : Nat) : EF) ≠ 0 := by
  have base := two_pow_ne_zero (F := F) ((Nat.le_add_left _ _).trans domain.subgroup.bound)
  rw [quotientDegree, ← map_natCast (algebraMap F EF)]
  exact (map_ne_zero_iff _ (algebraMap F EF).injective).mpr base

omit [DecidableEq F] in
/-- Outside the coset the weights exist and their sum does not vanish: the value
is the barycentric one over the roots of unity of the quotient degree. -/
theorem reconstructQuotient_eq (domain : EvaluationDomain F) (outside : domain.domain.OutOfDomain z)
    {chunks : List EF} (count : chunks.length = domain.quotientDegree) :
    ∃ omega : F, IsPrimitiveRoot omega domain.quotientDegree ∧
      (domain.reconstructQuotient z chunks : Outcome ε EF) = .ok
        ((∑ index ∈ Finset.range domain.quotientDegree, algebraMap F EF omega ^ index /
            (domain.chunkPoint z - algebraMap F EF omega ^ index) * chunks.getD index 0) *
          (domain.quotientDegree / (domain.chunkPoint z ^ domain.quotientDegree - 1))⁻¹) := by
  rcases domain.shrink_subgroup (ε := ε) with ⟨roots, shrunk, primitive⟩
  have mapped := primitive.map_of_injective (algebraMap F EF).injective
  have away := domain.chunkPoint_pow_ne_one outside
  have total := sum_root_div_sub mapped away (k := 0) (Nat.two_pow_pos _)
  simp only [zero_add, pow_one, pow_zero, mul_one] at total
  have nonzero : (domain.quotientDegree : EF) / (domain.chunkPoint z ^ domain.quotientDegree - 1) ≠ 0 :=
    div_ne_zero domain.quotientDegree_ne_zero (sub_ne_zero.mpr away)
  have weighed := weighChunks_eq (ε := ε) (sub_root_ne_zero mapped away) chunks 0 (0, 0)
  simp only [pow_zero, zero_add, count, total] at weighed
  refine ⟨generator roots, primitive, ?_⟩
  rw [reconstructQuotient, require_of count, ok_bind, shrunk, ok_bind]
  refine Eq.trans (congrArg (· >>= _) weighed) ?_
  rw [ok_bind, inverse_of_ne_zero nonzero]
  rfl

end EvaluationDomain

end MidenVm.Stark
