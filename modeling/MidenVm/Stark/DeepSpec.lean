import MidenVm.Stark.Deep
import MidenVm.Stark.DomainSpec

namespace MidenVm.Stark

open Foundation List Outcome Coset
open Foundation.TwoAdicField
open Polynomial

/-!
# Evaluation at the opening points

The interpolation uses the first rows of a stored matrix: these are the rows on
the coset of the degree.  The weights of a smaller degree are sums of weights
of the largest one.  Such a sum runs over the preimages of one point under the
lift, so it is the weight of that point at the lifted opening point, up to the
factor that the common scaling takes back.
-/

/-! ## Horner's scheme -/

section Horner

variable {R : Type} [CommRing R]

theorem hornerAcc_append (acc x : R) (first second : List R) :
    hornerAcc acc x (first ++ second) = hornerAcc (hornerAcc acc x first) x second := foldl_append

theorem hornerAcc_replicate_zero (acc x : R) (count : Nat) :
    hornerAcc acc x (List.replicate count 0) = acc * x ^ count := by
  induction count generalizing acc with
  | zero => rw [pow_zero, mul_one]; rfl
  | succ count ih =>
    change hornerAcc (acc * x + 0) x (List.replicate count 0) = _
    rw [ih, add_zero, pow_succ', mul_assoc]

theorem hornerAcc_table (acc x : R) (size : Nat) (entry : Nat -> R) :
    hornerAcc acc x (table size entry) =
      acc * x ^ size + ∑ index ∈ Finset.range size, x ^ (size - 1 - index) * entry index := by
  induction size with
  | zero => simp [hornerAcc, table]
  | succ size ih =>
    have last : table (size + 1) entry = table size entry ++ [entry size] := by
      rw [table, range_succ, map_append]
      rfl
    rw [last, hornerAcc_append, ih, Finset.sum_range_succ, Nat.add_sub_cancel, Nat.sub_self,
      pow_zero, one_mul]
    change (acc * x ^ size + _) * x + entry size = _
    rw [add_mul, Finset.sum_mul, pow_succ, mul_assoc, add_assoc]
    congr 2
    refine Finset.sum_congr rfl (fun index member => ?_)
    have below := Finset.mem_range.mp member
    have power : size - index = size - 1 - index + 1 := by omega
    rw [power, pow_succ]
    ring

/-- Horner's scheme commutes with maps of rings. -/
theorem map_hornerAcc {S : Type} [CommRing S] (f : R →+* S) (acc x : R) (values : List R) :
    f (hornerAcc acc x values) = hornerAcc (f acc) (f x) (values.map f) := by
  induction values generalizing acc with
  | nil => rfl
  | cons value rest ih =>
    change f (hornerAcc (acc * x + value) x rest) =
      hornerAcc (f acc * f x + f value) (f x) (rest.map f)
    rw [ih, map_add, map_mul]

end Horner

variable {F EF ε : Type} [Field F] [Field EF] [Algebra F EF] {N degree : Nat} {matrix : Matrix F}

namespace PointQuotients

/-! ## Weights -/

@[simp] theorem length_sumChunks (chunkSize : Nat) (weights : List (Fin N -> EF)) :
    (sumChunks chunkSize weights).length = weights.length / chunkSize := length_table _ _

theorem sumChunks_one (weights : List (Fin N -> EF)) : sumChunks 1 weights = weights := by
  rw [sumChunks, Nat.div_one]
  simp only [Finset.sum_range_one, mul_one, add_zero]
  exact table_getD weights 0

/-- Sums of sums of chunks are sums of larger chunks. -/
theorem sumChunks_sumChunks (outer inner : Nat) (weights : List (Fin N -> EF)) :
    sumChunks outer (sumChunks inner weights) = sumChunks (outer * inner) weights := by
  have count : weights.length / inner / outer = weights.length / (outer * inner) := by
    rw [Nat.div_div_eq_div_mul, mul_comm]
  unfold sumChunks
  rw [length_table, count]
  refine table_congr (fun index inside => ?_)
  rw [← sum_range_blocks outer inner (fun offset => weights.getD (index * (outer * inner) + offset) 0)]
  refine Finset.sum_congr rfl (fun block member => ?_)
  have position : index * outer + block < weights.length / inner := by
    rw [← count] at inside
    have room := Nat.div_mul_le_self (weights.length / inner) outer
    have next := Nat.mul_le_mul_right outer (Nat.succ_le_of_lt inside)
    have bound := Finset.mem_range.mp member
    rw [Nat.succ_mul] at next
    omega
  rw [getD_table position]
  refine Finset.sum_congr rfl (fun offset _ => ?_)
  rw [add_mul, mul_assoc, add_assoc]

/-- Every degree gets the sums of chunks of the largest weights. -/
theorem foldWeights_eq (top : List (Fin N -> EF)) (held : 0 < top.length) {degrees : List Nat}
    (divides : degree ∣ top.length)
    (chain : (degree :: degrees).Pairwise (fun larger smaller => smaller ∣ larger)) :
    foldWeights degrees (sumChunks (top.length / degree) top) =
      degrees.map (fun other => sumChunks (top.length / other) top) := by
  induction degrees generalizing degree with
  | nil => rfl
  | cons next rest ih =>
    rcases pairwise_cons.mp chain with ⟨below, tail⟩
    have smaller := below next mem_cons_self
    have size : (sumChunks (top.length / degree) top).length = degree := by
      rw [length_sumChunks, Nat.div_div_self divides held.ne']
    have step : sumChunks (degree / next) (sumChunks (top.length / degree) top) =
        sumChunks (top.length / next) top := by
      rw [sumChunks_sumChunks, mul_comm, Nat.div_mul_div_comm divides smaller, mul_comm degree,
        Nat.mul_div_mul_right _ _ (Nat.pos_of_dvd_of_pos divides held)]
    rw [foldWeights, size, step, map_cons]
    exact congrArg _ (ih (smaller.trans divides) tail)

/-- The weights of a degree are found by their number. -/
theorem find?_weights {top : List (Fin N -> EF)} (held : 0 < top.length) {degrees : List Nat}
    (divide : forall degree, degree ∈ degrees -> degree ∣ top.length) (member : degree ∈ degrees) :
    (degrees.map (fun other => sumChunks (top.length / other) top)).find?
      (fun weights => weights.length = degree) = some (sumChunks (top.length / degree) top) := by
  induction degrees with
  | nil => cases member
  | cons first rest ih =>
    have size : (sumChunks (top.length / first) top).length = first := by
      rw [length_sumChunks, Nat.div_div_self (divide first mem_cons_self) held.ne']
    rw [map_cons, find?_cons, size]
    by_cases same : first = degree
    · rw [decide_eq_true same, same]
    · rw [decide_eq_false same]
      have later := (mem_cons.mp member).resolve_left (Ne.symm same)
      exact ih (fun other inside => divide other (mem_cons_of_mem first inside)) later

/-! ## The evaluation returns -/

/-- The matrices have heights from the blowup up to that of the domain, and
one has the height of the domain. -/
structure Fits (groups : List (List (Matrix F))) (logBlowup logLde : Nat) : Prop where
  blowup_le : forall matrix, matrix ∈ groups.flatten -> logBlowup ≤ matrix.logHeight
  le_lde : forall matrix, matrix ∈ groups.flatten -> matrix.logHeight ≤ logLde
  full : ∃ matrix, matrix ∈ groups.flatten ∧ matrix.logHeight = logLde

section Degrees

variable {groups : List (List (Matrix F))} {logBlowup logLde : Nat}

omit [Field F] in
theorem mem_usedDegrees : degree ∈ usedDegrees groups logBlowup ↔
    ∃ matrix, matrix ∈ groups.flatten ∧ matrix.height / 2 ^ logBlowup = degree := by
  rw [usedDegrees, Finset.mem_sort, mem_toFinset, mem_map]

omit [Field F] in
theorem height_div (below : logBlowup ≤ matrix.logHeight) :
    matrix.height / 2 ^ logBlowup = 2 ^ (matrix.logHeight - logBlowup) :=
  Nat.pow_div below two_pos

omit [Field F] in
/-- The degrees are powers of two, from that of the domain down. -/
theorem usedDegrees_eq (fits : Fits groups logBlowup logLde) :
    ∃ rest, usedDegrees groups logBlowup = 2 ^ (logLde - logBlowup) :: rest ∧
      (2 ^ (logLde - logBlowup) :: rest).Pairwise (fun larger smaller => smaller ∣ larger) := by
  have sorted : (usedDegrees groups logBlowup).Pairwise (· ≥ ·) := Finset.pairwise_sort _ _
  have powers : forall degree, degree ∈ usedDegrees groups logBlowup ->
      ∃ log, log ≤ logLde - logBlowup ∧ degree = 2 ^ log := by
    intro degree member
    rcases mem_usedDegrees.mp member with ⟨matrix, held, rfl⟩
    exact ⟨matrix.logHeight - logBlowup, Nat.sub_le_sub_right (fits.le_lde matrix held) _,
      height_div (fits.blowup_le matrix held)⟩
  have top : 2 ^ (logLde - logBlowup) ∈ usedDegrees groups logBlowup := by
    rcases fits.full with ⟨matrix, held, same⟩
    exact mem_usedDegrees.mpr ⟨matrix, held, same ▸ height_div (fits.blowup_le matrix held)⟩
  have chain : (usedDegrees groups logBlowup).Pairwise (fun larger smaller => smaller ∣ larger) := by
    refine sorted.imp_of_mem ?_
    intro larger smaller inLarger inSmaller order
    rcases powers larger inLarger with ⟨high, _, rfl⟩
    rcases powers smaller inSmaller with ⟨low, _, rfl⟩
    exact pow_dvd_pow 2 ((Nat.pow_le_pow_iff_right one_lt_two).mp order)
  cases known : usedDegrees groups logBlowup with
  | nil =>
    rw [known] at top
    cases top
  | cons first rest =>
    rw [known] at top sorted chain
    -- The first degree is the largest, and no degree is larger than the domain's.
    have largest : 2 ^ (logLde - logBlowup) ≤ first := by
      rcases mem_cons.mp top with same | later
      · exact same.le
      · exact (pairwise_cons.mp sorted).1 _ later
    rcases powers first (known ▸ mem_cons_self) with ⟨log, below, rfl⟩
    have same : 2 ^ log = 2 ^ (logLde - logBlowup) :=
      le_antisymm (Nat.pow_le_pow_right two_pos below) largest
    rw [same] at chain ⊢
    exact ⟨rest, rfl, chain⟩

end Degrees

section Domain

variable [TwoAdicField F] {domain : LiftedDomain F} {points : Fin N -> EF}

/-- The distances that `PointQuotients` stores. -/
def distances (domain : LiftedDomain F) (points : Fin N -> EF) (index : Nat) : Fin N -> EF :=
  fun point => points point - algebraMap F EF
    (Coset.pointAt domain.ldeCoset (reverseBits domain.logLdeHeight index))

theorem new_eq [DecidableEq EF] (apart : forall point index,
      points point - algebraMap F EF (pointAt domain.ldeCoset index) ≠ 0) :
    (new points (bitReversedPoints domain.ldeCoset) : Outcome ε _) =
      .ok ⟨points, table (2 ^ domain.logLdeHeight) (fun index => (distances domain points index)⁻¹)⟩ := by
  have stored : (bitReversedPoints domain.ldeCoset).map
      (fun x point => points point - algebraMap F EF x) =
        table (2 ^ domain.logLdeHeight) (distances domain points) := by
    rw [bitReversedPoints_eq, map_table]
    rfl
  have invertible : forall value, value ∈ (table (2 ^ domain.logLdeHeight)
      (distances domain points)).flatMap List.ofFn -> value ≠ 0 := by
    intro value member
    rcases mem_flatMap.mp member with ⟨diff, inList, held⟩
    rcases mem_table.mp inList with ⟨index, _, rfl⟩
    rcases (mem_ofFn' _ _).mp held with ⟨point, rfl⟩
    exact apart point _
  rw [new, stored, batchInverse_of_ne_zero invertible, ok_bind, map_table]
  rfl

/-- The weights of the largest degree. -/
def topWeights (domain : LiftedDomain F) (points : Fin N -> EF) : List (Fin N -> EF) :=
  table (2 ^ domain.logTraceHeight) (fun index => (distances domain points index)⁻¹ - points⁻¹)

/-- The scalings of the interpolation. -/
def scalings (domain : LiftedDomain F) (points : Fin N -> EF) : Fin N -> EF := fun point =>
  points point * (((points point * algebraMap F EF domain.ldeCoset.shift⁻¹) ^
    2 ^ domain.logTraceHeight - 1) * ((2 : EF) ^ domain.logTraceHeight)⁻¹)

theorem two_pow_trace_ne_zero (domain : LiftedDomain F) : (2 : EF) ^ domain.logTraceHeight ≠ 0 := by
  have base := two_pow_ne_zero (F := F) domain.traceSubgroup.bound
  have mapped := (map_ne_zero_iff _ (algebraMap F EF).injective).mpr base
  rwa [map_natCast, Nat.cast_pow, Nat.cast_ofNat] at mapped

theorem getD_zero_bitReversedPoints (domain : LiftedDomain F) :
    (bitReversedPoints domain.ldeCoset).getD 0 0 = domain.ldeCoset.shift := by
  rw [getD_bitReversedPoints _ (Nat.two_pow_pos _), reverseBits_zero, pointAt, pow_zero, mul_one]
  rfl

/-- For points that are not zero and off the coset, no division fails, and every
matrix is weighed with the sums of the weights over its lift ratio. -/
theorem batchEvalLifted_eq [DecidableEq F] [DecidableEq EF]
    (nonzero : forall point, points point ≠ 0)
    {groups : List (List (Matrix F))} (fits : Fits groups domain.logBlowup domain.logLdeHeight) :
    (batchEvalLifted
      ⟨points, table (2 ^ domain.logLdeHeight) (fun index => (distances domain points index)⁻¹)⟩ groups
      (bitReversedPoints domain.ldeCoset) domain.logBlowup : Outcome ε _) =
      .ok (groups.flatten.map (fun matrix => evalMatrix
        (sumChunks (2 ^ (domain.logLdeHeight - matrix.logHeight)) (topWeights domain points))
        (scalings domain points) matrix)) := by
  set tops := topWeights domain points
  have order : domain.logTraceHeight ≤ domain.logLdeHeight := domain.trace_le_lde
  have degree : domain.logLdeHeight - domain.logBlowup = domain.logTraceHeight :=
    Nat.sub_sub_self order
  have size : (bitReversedPoints domain.ldeCoset).length / 2 ^ domain.logBlowup =
      2 ^ domain.logTraceHeight := by
    rw [length_bitReversedPoints, ← degree]
    exact Nat.pow_div (Nat.sub_le _ _) two_pos
  have power : (log2Strict (2 ^ domain.logTraceHeight) : Outcome ε Nat) =
      .ok domain.logTraceHeight := by
    rw [log2Strict, Nat.log2_two_pow, if_pos rfl]
  have invPoints : (inverseEach points : Outcome ε (Fin N -> EF)) = .ok points⁻¹ :=
    if_neg (fun ⟨point, zero⟩ => nonzero point zero)
  have top : ((table (2 ^ domain.logLdeHeight) (fun index => (distances domain points index)⁻¹)).take
      (2 ^ domain.logTraceHeight)).map (· - points⁻¹) = tops := by
    rw [take_table (Nat.pow_le_pow_right two_pos order), map_table]
    rfl
  rcases usedDegrees_eq fits with ⟨rest, known, chain⟩
  rw [degree] at known chain
  have held : tops.length = 2 ^ domain.logTraceHeight := length_table _ _
  have positive : 0 < tops.length := held ▸ Nat.two_pow_pos _
  have divide : forall other, other ∈ 2 ^ domain.logTraceHeight :: rest -> other ∣ tops.length := by
    intro other member
    rw [held]
    rcases mem_cons.mp member with rfl | later
    · exact dvd_rfl
    · exact (pairwise_cons.mp chain).1 other later
  -- The weights held for all degrees, the largest first.
  have weights : tops :: foldWeights rest tops =
      (2 ^ domain.logTraceHeight :: rest).map (fun other =>
        sumChunks (tops.length / other) tops) := by
    have first : sumChunks (tops.length / 2 ^ domain.logTraceHeight)
        tops = tops := by
      rw [held, Nat.div_self (Nat.two_pow_pos _), sumChunks_one]
    rw [map_cons, first]
    refine congrArg _ ?_
    rw [← foldWeights_eq _ positive (held ▸ dvd_rfl) chain, first]
  rw [batchEvalLifted, size, power, ok_bind, getD_zero_bitReversedPoints,
    inverse_of_ne_zero domain.ldeCoset.shift_ne_zero, ok_bind, barycentricScalings,
    inverse_of_ne_zero (two_pow_trace_ne_zero domain), ok_bind, pure_eq_ok,
    ok_bind, invPoints, ok_bind, known]
  dsimp only
  rw [head?_cons, require_of rfl, ok_bind, tail_cons, top, weights]
  apply collect_eq_ok_map
  intro matrix member
  have below := fits.blowup_le matrix member
  have used : matrix.height / 2 ^ domain.logBlowup ∈ 2 ^ domain.logTraceHeight :: rest :=
    known ▸ mem_usedDegrees.mpr ⟨matrix, member, rfl⟩
  have ratio : tops.length / (matrix.height / 2 ^ domain.logBlowup) =
      2 ^ (domain.logLdeHeight - matrix.logHeight) := by
    have above := fits.le_lde matrix member
    rw [held, height_div below, Nat.pow_div _ two_pos]
    · congr 1
      omega
    · omega
  rw [find?_weights positive divide used, expect_some, ok_bind, ratio]
  rfl

/-! ## The values -/

/-- Opening points that are not zero and lie outside the evaluation coset. -/
structure Outside (domain : LiftedDomain F) (points : Fin N -> EF) : Prop where
  ne_zero : forall point, points point ≠ 0
  lde : forall point, (points point * algebraMap F EF domain.ldeCoset.shift⁻¹) ^ 2 ^ domain.logLdeHeight ≠ 1

theorem Outside.apart (outside : Outside domain points) (point : Fin N) (index : Nat) :
    points point - algebraMap F EF (pointAt domain.ldeCoset index) ≠ 0 :=
  sub_pointAt_ne_zero domain.ldeCoset (outside.lde point) index

theorem distances_eq (domain : LiftedDomain F) (points : Fin N -> EF) (index : Nat)
    (point : Fin N) : distances domain points index point =
      points point - algebraMap F EF (storedPoint F domain.logLdeHeight index) := by
  rw [distances, LiftedDomain.pointAt_ldeCoset]

/-- At the lifted point the distances to the smaller coset do not vanish. -/
theorem Outside.lift (outside : Outside domain points) (point : Fin N) {low more : Nat}
    (split : low + more = domain.logLdeHeight) :
    (points point ^ 2 ^ more / algebraMap F EF (canonicalShift F low)) ^ 2 ^ low ≠ 1 := by
  have bound : low + more ≤ twoAdicity F := split ▸ domain.ldeCoset.subgroup.bound
  have shift : domain.ldeCoset.shift = canonicalShift F (low + more) := split ▸ domain.shift_eq
  have away := outside.lde point
  rw [shift, map_inv₀, ← div_eq_mul_inv, ← split, add_comm, pow_add, pow_mul, div_pow,
    ← map_pow, add_comm, canonicalShift_pow bound] at away
  exact away

/-- A weight of a smaller degree. -/
theorem sumChunks_topWeights (outside : Outside domain points) (point : Fin N)
    {blowup low more : Nat}
    (trace : low + more = domain.logTraceHeight) (lde : blowup + low + more = domain.logLdeHeight)
    {index : Nat} (small : index < 2 ^ low) :
    (sumChunks (2 ^ more) (topWeights domain points)).getD index 0 point =
      2 ^ more * (points point)⁻¹ * (algebraMap F EF (storedPoint F (blowup + low) index) /
        (points point ^ 2 ^ more - algebraMap F EF (storedPoint F (blowup + low) index))) := by
  have bound : blowup + low + more ≤ twoAdicity F := lde ▸ domain.ldeCoset.subgroup.bound
  have moreBound : more ≤ twoAdicity F := (Nat.le_add_left _ _).trans bound
  have size : (topWeights domain points).length / 2 ^ more = 2 ^ low := by
    rw [topWeights, length_table, ← trace, pow_add, Nat.mul_div_cancel _ (Nat.two_pow_pos more)]
  have inside (offset : Nat) (member : offset ∈ Finset.range (2 ^ more)) :
      index * 2 ^ more + offset < 2 ^ domain.logTraceHeight := by
    have next := Nat.mul_le_mul_right (2 ^ more) (Nat.succ_le_of_lt small)
    rw [Nat.succ_mul, ← pow_add, trace] at next
    have below := Finset.mem_range.mp member
    omega
  have root :=
    (TwoAdicField.primitive (F := F) more moreBound).map_of_injective (algebraMap F EF).injective
  -- The points of the chunk are the roots of one point of the smaller coset.
  generalize chunk : algebraMap F EF (storedPoint F (blowup + low + more) (index * 2 ^ more)) = start
  have power : start ^ 2 ^ more = algebraMap F EF (storedPoint F (blowup + low) index) := by
    rw [← chunk, ← map_pow, storedPoint_lift bound]
  have nonzero : start ≠ 0 := by
    rw [← chunk]
    refine (map_ne_zero_iff _ (algebraMap F EF).injective).mpr (mul_ne_zero (canonicalShift_ne_zero _) ?_)
    exact pow_ne_zero _ (twoAdicGenerator_ne_zero bound)
  have distance : points point ^ 2 ^ more ≠ start ^ 2 ^ more := by
    intro same
    refine outside.lift point lde ?_
    have order : (twoAdicGenerator (blowup + low) : F) ^ 2 ^ (blowup + low) = 1 :=
      twoAdicGenerator_pow_one ((Nat.le_add_right _ _).trans bound)
    rw [same, power, storedPoint, ← map_div₀, mul_div_cancel_left₀ _ (canonicalShift_ne_zero _),
      ← map_pow, ← pow_mul, mul_comm, pow_mul, order, one_pow, map_one]
  have total := sum_inv_sub_inv root nonzero (outside.ne_zero point) distance
  rw [power] at total
  rw [sumChunks, getD_table (size.symm ▸ small), Finset.sum_apply]
  calc ∑ offset ∈ Finset.range (2 ^ more), (topWeights domain points).getD (index * 2 ^ more + offset) 0 point
      = ∑ offset ∈ Finset.range (2 ^ more), ((points point - start *
          algebraMap F EF (twoAdicGenerator more) ^ reverseBits more offset)⁻¹ - (points point)⁻¹) := by
        refine Finset.sum_congr rfl (fun offset member => ?_)
        rw [topWeights, getD_table (inside offset member), Pi.sub_apply, Pi.inv_apply, Pi.inv_apply,
          distances_eq, ← lde, storedPoint_block bound index (Finset.mem_range.mp member), map_mul,
          map_pow, chunk]
    _ = _ := by
        rw [sum_reverseBits more (fun t => (points point - start *
          algebraMap F EF (twoAdicGenerator more) ^ t)⁻¹ - (points point)⁻¹), total]
        push_cast
        rfl

end Domain

end PointQuotients

/-- The columns of a matrix are evaluations of polynomials of small degree on
the coset of its height, in stored order. -/
structure Matrix.Extends [TwoAdicField F] (logBlowup : Nat) (matrix : Matrix F)
    (columns : Nat -> F[X]) : Prop where
  degree_lt : forall column, column < matrix.width ->
    (columns column).degree < (2 ^ (matrix.logHeight - logBlowup) : Nat)
  entry_eq : forall column row, column < matrix.width -> row < matrix.height ->
    matrix.entry row column = (columns column).eval (storedPoint F matrix.logHeight row)

variable {columns : Nat -> F[X]}

/-- The barycentric sum of a column runs over the first stored rows. -/
theorem Matrix.Extends.sum_rows [TwoAdicField F] {blowup low : Nat}
    (lde : matrix.Extends blowup columns)
    (height : matrix.logHeight = blowup + low) (bound : blowup + low ≤ twoAdicity F) {column : Nat}
    (inside : column < matrix.width) {w : EF}
    (away : (w / algebraMap F EF (canonicalShift F (blowup + low))) ^ 2 ^ low ≠ 1) :
    ∑ index ∈ Finset.range (2 ^ low), algebraMap F EF (storedPoint F (blowup + low) index) /
        (w - algebraMap F EF (storedPoint F (blowup + low) index)) *
          algebraMap F EF (matrix.entry index column) =
      2 ^ low * aeval w (columns column) /
        ((w / algebraMap F EF (canonicalShift F (blowup + low))) ^ 2 ^ low - 1) := by
  have root :=
    (TwoAdicField.primitive (F := F) low ((Nat.le_add_left _ _).trans bound)).map_of_injective
    (algebraMap F EF).injective
  set base := algebraMap F EF (canonicalShift F (blowup + low))
  have shift : base ≠ 0 :=
    (map_ne_zero_iff _ (algebraMap F EF).injective).mpr (canonicalShift_ne_zero _)
  have small : ((columns column).map (algebraMap F EF)).degree < (2 ^ low : Nat) := by
    have bounded := lde.degree_lt column inside
    rw [height, Nat.add_sub_cancel_left] at bounded
    rwa [degree_map_eq_of_injective (algebraMap F EF).injective]
  have formula := barycentric root shift away small
  rw [eval_map_algebraMap, Nat.cast_pow, Nat.cast_ofNat] at formula
  rw [← formula, ← sum_reverseBits low (fun t =>
    base * algebraMap F EF (twoAdicGenerator low) ^ t /
      (w - base * algebraMap F EF (twoAdicGenerator low) ^ t) *
        eval (base * algebraMap F EF (twoAdicGenerator low) ^ t)
          ((columns column).map (algebraMap F EF)))]
  refine Finset.sum_congr rfl (fun index member => ?_)
  have below := Finset.mem_range.mp member
  have row : index < matrix.height := by
    rw [Matrix.height, height]
    exact below.trans_le (Nat.pow_le_pow_right two_pos (Nat.le_add_left _ _))
  rw [lde.entry_eq column index inside row, height, storedPoint_first bound below, ← map_pow,
    ← map_mul, eval_map, eval₂_at_apply]

namespace PointQuotients

variable [TwoAdicField F] {domain : LiftedDomain F} {points : Fin N -> EF}

/-- The interpolation gives the columns at the lifted points. -/
theorem evalMatrix_eq (outside : Outside domain points)
    (blowup_le : domain.logBlowup ≤ matrix.logHeight)
    (le_lde : matrix.logHeight ≤ domain.logLdeHeight)
    (lde : matrix.Extends domain.logBlowup columns) :
    evalMatrix (sumChunks (2 ^ (domain.logLdeHeight - matrix.logHeight)) (topWeights domain points))
        (scalings domain points) matrix =
      table matrix.width (fun column point =>
        aeval (points point ^ 2 ^ (domain.logLdeHeight - matrix.logHeight)) (columns column)) := by
  refine table_congr (fun column inside => ?_)
  funext point
  have order : domain.logTraceHeight ≤ domain.logLdeHeight := domain.trace_le_lde
  have blowup : domain.logBlowup = domain.logLdeHeight - domain.logTraceHeight := rfl
  rcases Nat.exists_eq_add_of_le blowup_le with ⟨low, height⟩
  rcases Nat.exists_eq_add_of_le le_lde with ⟨more, total⟩
  have ratio : domain.logLdeHeight - matrix.logHeight = more := by omega
  have whole : domain.logBlowup + low + more = domain.logLdeHeight := by omega
  have trace : low + more = domain.logTraceHeight := by omega
  have bound : domain.logBlowup + low + more ≤ twoAdicity F :=
    whole ▸ domain.ldeCoset.subgroup.bound
  have size : (sumChunks (2 ^ more) (topWeights domain points)).length = 2 ^ low := by
    rw [length_sumChunks, topWeights, length_table, ← trace, pow_add,
      Nat.mul_div_cancel _ (Nat.two_pow_pos more)]
  set unshifted :=
    points point ^ 2 ^ more / algebraMap F EF (canonicalShift F (domain.logBlowup + low))
    with quotient
  have away : unshifted ^ 2 ^ low ≠ 1 :=
    pow_ne_one_of_dvd (pow_dvd_pow 2 (Nat.le_add_left _ _)) (outside.lift point whole)
  have scaling : unshifted ^ 2 ^ low =
      (points point * algebraMap F EF domain.ldeCoset.shift⁻¹) ^ 2 ^ domain.logTraceHeight := by
    rw [quotient, domain.shift_eq, show domain.ldeCoset.subgroup.logSize = domain.logLdeHeight from rfl, ← whole,
      ← canonicalShift_pow bound, map_pow, ← div_pow, ← pow_mul, ← pow_add, add_comm more, trace,
      map_inv₀, div_eq_mul_inv]
  have weighted : ∑ index ∈ Finset.range (2 ^ low),
      (sumChunks (2 ^ more) (topWeights domain points)).getD index 0 point *
        algebraMap F EF (matrix.entry index column) =
      2 ^ more * (points point)⁻¹ * (2 ^ low * aeval (points point ^ 2 ^ more) (columns column) /
        (unshifted ^ 2 ^ low - 1)) := by
    rw [← lde.sum_rows height ((Nat.le_add_right _ _).trans bound) inside away, Finset.mul_sum]
    refine Finset.sum_congr rfl (fun index member => ?_)
    rw [sumChunks_topWeights outside point trace whole (Finset.mem_range.mp member), mul_assoc]
  -- What is left is to cancel the number of rows, the point and the vanishing value.
  have two : (2 : EF) ^ domain.logTraceHeight ≠ 0 := two_pow_trace_ne_zero domain
  have power : (2 : EF) ^ domain.logTraceHeight = 2 ^ more * 2 ^ low := by
    rw [← trace, pow_add, mul_comm]
  rw [ratio, size]
  simp only [Pi.mul_apply, Finset.sum_apply]
  rw [scalings, ← scaling, weighted, power]
  rw [power] at two
  have denominator := sub_ne_zero.mpr away
  have point_ne := outside.ne_zero point
  have moreNe := left_ne_zero_of_mul two
  have lowNe := right_ne_zero_of_mul two
  generalize (2 : EF) ^ more = upper at moreNe ⊢
  generalize (2 : EF) ^ low = lower at lowNe ⊢
  field_simp

end PointQuotients

end MidenVm.Stark
